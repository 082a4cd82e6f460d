import NextEmu.Simple.IntegerConformance
import NextEmu.Simple.RvcImmediates

/-!
# The compressed instructions

The code of a compressed instruction performs the effect of its expansion. The source
skips some writes when an immediate is zero, where the expansion writes a register
with its own value.
-/

namespace NextEmu.Simple.RvcConformance

open NextEmu.Lib.AbortState NextEmu.Lib.BitField NextEmu.Lib.RiscV NextEmu.Lib.RiscV.Compressed
open NextEmu.Sdk
open AluConformance Conformance IntegerConformance PreciseTraps RvcImmediates
open Outcomes (setGPR_zero)

/-! ## Registers and values -/

section Values

theorem setGPR_self (c : RV64Core) (rd : BitVec 5) : c.setGPR rd (c.gpr rd) = c := by
  have hgpr : (fun r => if r = rd then c.gpr rd else c.gpr r) = c.gpr := by
    funext r
    split
    · rename_i h
      rw [h]
    · rfl
  unfold RV64Core.setGPR
  rw [hgpr]
  exact ite_self c

/-- An operation that the source skips for a zero operand. -/
theorem value_skipped {op : AluOp} (h : op = .add ∨ op = .sll ∨ op = .srl ∨ op = .sra)
    (a : BitVec 64) : op.value a 0 = a := by
  have hzero : (0 : BitVec 64).toNat % 64 = 0 := rfl
  rcases h with rfl | rfl | rfl | rfl
  · rw [value_add]
    exact BitVec.add_zero a
  · rw [value_sll, hzero]
    exact BitVec.shiftLeft_zero a
  · rw [value_srl, hzero]
    exact BitVec.ushiftRight_zero a
  · rw [value_sra, hzero]
    exact BitVec.sshiftRight_zero

theorem signExtend_eq_zero {n : Nat} {x : BitVec n} (h : n ≤ 64) :
    x.signExtend 64 = 0 ↔ x = 0 := by
  have hzero : ∀ m : Nat, BitVec.toInt (0 : BitVec m) = 0 := fun m => BitVec.toInt_zero
  rw [← BitVec.toInt_inj, ← BitVec.toInt_inj, BitVec.toInt_signExtend_of_le h, hzero, hzero]

theorem setWidth_eq_zero {n : Nat} {x : BitVec n} (h : n ≤ 64) : x.setWidth 64 = 0 ↔ x = 0 := by
  have hlt : x.toNat < 2 ^ 64 := Nat.lt_of_lt_of_le x.isLt (Nat.pow_le_pow_right (by decide) h)
  rw [← BitVec.toNat_inj, ← BitVec.toNat_inj, BitVec.toNat_setWidth, Nat.mod_eq_of_lt hlt]
  rfl

theorem clearBit0_eq (v : BitVec 64) : clearBit0 v = v &&& ~~~ 1 := clear_bit0 (by decide) v

theorem clearBit0_even (v : BitVec 64) : ¬ clearBit0 v % 2 ≠ 0 := by
  have hbit : (clearBit0 v).getLsbD 0 = false := by
    rw [clearBit0_eq]
    simp
  have hmod : (clearBit0 v).toNat % 2 = 0 := by
    have h := hbit
    unfold BitVec.getLsbD at h
    rw [Nat.testBit_zero, decide_eq_false_iff_not] at h
    omega
  refine fun hne => hne (BitVec.eq_of_toNat_eq ?_)
  rw [BitVec.toNat_umod]
  exact hmod

end Values

/-! ## The code of each opcode -/

section Cases

variable {β : Type} (m : Machine β) (inst : BitVec 32)

/-- The code performs the effect of an instruction of two bytes. -/
def PerformsInst [SlaveAtomicIOI β] (x : Emu β ExecFlags) (m : Machine β) (i : Inst) : Prop :=
  Performs 2 x m (i.effect 2 m.core.gpr m.core.currentProgramCounter)

/-- `GPR[rd] = alu_exec(..)`. -/
theorem cAlu_run {b v : BitVec 64} {op : ALUOp} {op32 : Bool} (rd : BitVec 5)
    (h : aluValue (m.core.gpr rd) b op op32 = some v) :
    cAlu rd b op op32 m = .ok retired { m with core := m.core.setGPR rd v } := by
  unfold cAlu
  rw [bind_of_ok (getCore_run m)]
  exact aluGPR_run m h rd

/-- The same behind `if (imm)`. -/
theorem cAluImm_run {op : AluOp} (h : op = .add ∨ op = .sll ∨ op = .srl ∨ op = .sra)
    (rd : BitVec 5) (imm : BitVec 64) :
    (if imm ≠ 0 then cAlu rd imm (sourceOp op) false else return retired : Emu β ExecFlags) m =
      .ok retired { m with core := m.core.setGPR rd (op.value (m.core.gpr rd) imm) } := by
  by_cases hzero : imm = 0
  · rw [if_neg fun hne => hne hzero, hzero, value_skipped h, setGPR_self]
    rfl
  · rw [if_pos hzero]
    exact cAlu_run m _ (aluValue_double _ _ op)

variable [SlaveAtomicIOI β]

theorem performs_of_run {x y : Emu β ExecFlags} {i : Inst} (h : x m = y m)
    (hp : PerformsInst y m i) : PerformsInst x m i := by
  unfold PerformsInst at hp ⊢
  cases he : i.effect 2 m.core.gpr m.core.currentProgramCounter with
  | write rd value | jump rd link target | load rd addr width unsigned | store addr width data
  | breakpoint =>
    rw [he] at hp
    simp only [Performs, h]
    exact hp

theorem cLoad_performs {imm : BitVec 64} {imm12 : BitVec 12} (h : imm = imm12.signExtend 64)
    (base rd : BitVec 5) (width : Width) :
    PerformsInst (cLoad base imm width.bytes rd) m (.load width false rd base imm12) := by
  simp only [PerformsInst, Inst.effect, Performs]
  unfold cLoad
  rw [bind_of_ok (getCore_run m), h]
  rfl

theorem cStore_performs {imm : BitVec 64} {imm12 : BitVec 12} (h : imm = imm12.signExtend 64)
    (base rs2 : BitVec 5) (width : Width) :
    PerformsInst (cStore base imm width.bytes rs2) m (.store width base rs2 imm12) := by
  simp only [PerformsInst, Inst.effect, Performs]
  unfold cStore
  rw [bind_of_ok (getCore_run m), h]

/-- A jump to an offset, with no link. -/
theorem cJump_performs (link imm : BitVec 64) :
    Performs 2 (cJump imm) m (.jump 0 link (m.core.currentProgramCounter + imm)) := by
  refine .inl ?_
  rw [setGPR_zero]
  rfl

/-- C.JR and C.JALR. -/
theorem jumpTo_performs {rd : BitVec 5} {link : Option (BitVec 5 × BitVec 64)}
    (h : rd = 0 ∧ link = none ∨ link = some (rd, m.core.currentProgramCounter + 2))
    (rs1 : BitVec 5) :
    PerformsInst (jumpTo (clearBit0 (m.core.gpr rs1)) link) m (.jalr rd rs1 0) := by
  have hzero : (0 : BitVec 12).signExtend 64 = 0 := rfl
  have htarget : (m.core.gpr rs1 + (0 : BitVec 12).signExtend 64) &&& ~~~ 1 =
      clearBit0 (m.core.gpr rs1) := by
    rw [clearBit0_eq, hzero]
    exact congrArg (· &&& ~~~ 1) (BitVec.add_zero _)
  refine .inl ?_
  unfold jumpTo
  rw [if_neg (clearBit0_even _), htarget]
  rcases h with ⟨rfl, rfl⟩ | rfl
  · rw [setGPR_zero]
    rfl
  · rfl

theorem addi4spn_performs (h : uimmAddi4spn (inst.setWidth 16) ≠ 0) :
    PerformsInst (execCAddi4spn inst) m (.comp (.opImm .add (creg (field (inst.setWidth 16) 2 3)) 2
      ((uimmAddi4spn (inst.setWidth 16)).setWidth 12))) := by
  have himm : RVC.immAddi4spn inst ≠ 0 := by
    rw [immAddi4spn_eq, signExtend_setWidth _ (by decide)]
    exact fun hzero => h ((setWidth_eq_zero (by decide)).mp hzero)
  have hvalue : AluOp.add.value (m.core.gpr 2)
      (((uimmAddi4spn (inst.setWidth 16)).setWidth 12).signExtend 64) =
        m.core.gpr 2 + RVC.immAddi4spn inst := by
    rw [value_add, immAddi4spn_eq]
  simp only [PerformsInst, Inst.effect, Performs, Comp.rd, Comp.value, ImmOp.toAlu, hvalue]
  unfold execCAddi4spn
  rw [bind_of_ok (getCore_run m), if_pos himm, ← lowReg_eq]
  rfl

theorem addi_performs :
    PerformsInst (execCAddi inst) m (.comp (.opImm .add (field (inst.setWidth 16) 7 5)
      (field (inst.setWidth 16) 7 5) ((imm6 (inst.setWidth 16)).signExtend 12))) := by
  have hrun := cAluImm_run m (.inl rfl) (RVC.rd inst) (RVC.imm6Signed inst)
  rw [rd_eq, imm6Signed_eq] at hrun
  unfold execCAddi
  dsimp only
  rw [rd_eq, imm6Signed_eq]
  exact hrun

theorem addiw_performs :
    PerformsInst (execCAddiw inst) m (.comp (.addiw (field (inst.setWidth 16) 7 5)
      (field (inst.setWidth 16) 7 5) ((imm6 (inst.setWidth 16)).signExtend 12))) := by
  have hrun := cAlu_run m (RVC.rd inst) (aluValue_word _ (RVC.imm6Signed inst) .add)
  rw [rd_eq, imm6Signed_eq] at hrun
  unfold execCAddiw
  rw [rd_eq, imm6Signed_eq]
  exact hrun

theorem li_performs (h0 : m.core.gpr 0 = 0) :
    PerformsInst (execCLi inst) m (.comp (.opImm .add (field (inst.setWidth 16) 7 5) 0
      ((imm6 (inst.setWidth 16)).signExtend 12))) := by
  have hvalue : AluOp.add.value (m.core.gpr 0)
      (((imm6 (inst.setWidth 16)).signExtend 12).signExtend 64) = RVC.imm6Signed inst := by
    rw [value_add, h0, imm6Signed_eq]
    exact BitVec.zero_add _
  simp only [PerformsInst, Inst.effect, Performs, Comp.rd, Comp.value, ImmOp.toAlu, hvalue]
  unfold execCLi
  rw [bind_of_ok (setGPR_run _ _ m), rd_eq]
  rfl

theorem addi16sp_performs (h : field (inst.setWidth 16) 7 5 = 2) :
    PerformsInst (execCAddi16spLui inst) m (.comp (.opImm .add 2 2
      ((immAddi16sp (inst.setWidth 16)).signExtend 12))) := by
  have hvalue : AluOp.add.value (m.core.gpr 2)
      (((immAddi16sp (inst.setWidth 16)).signExtend 12).signExtend 64) =
        m.core.gpr 2 + RVC.immAddi16sp inst := by
    rw [value_add, immAddi16sp_eq]
  simp only [PerformsInst, Inst.effect, Performs, Comp.rd, Comp.value, ImmOp.toAlu, hvalue]
  unfold execCAddi16spLui
  have hrd : RVC.rd inst = 2 := by
    rw [rd_eq, h]
  rw [bind_of_ok (getCore_run m)]
  simp only [hrd, if_true]
  by_cases hzero : RVC.immAddi16sp inst = 0
  · have hself : m.core.gpr 2 + RVC.immAddi16sp inst = m.core.gpr 2 := by
      rw [hzero]
      exact BitVec.add_zero _
    rw [hself, setGPR_self, if_neg fun hne => hne hzero]
    rfl
  · rw [if_pos hzero]
    rfl

theorem lui_performs (h : field (inst.setWidth 16) 7 5 ≠ 2) (hne : imm6 (inst.setWidth 16) ≠ 0) :
    PerformsInst (execCAddi16spLui inst) m (.comp (.lui (field (inst.setWidth 16) 7 5)
      ((imm6 (inst.setWidth 16)).signExtend 20))) := by
  have himm : RVC.immLui inst ≠ 0 := by
    rw [immLui_eq, signExtend_append _ (by decide) (by decide)]
    refine fun hzero => hne ?_
    have happend := (signExtend_eq_zero (by decide)).mp hzero
    revert happend
    generalize imm6 (inst.setWidth 16) = x
    revert x
    decide
  simp only [PerformsInst, Inst.effect, Performs, Comp.rd, Comp.value, ← immLui_eq]
  unfold execCAddi16spLui
  have hrd : RVC.rd inst ≠ 2 := by
    rw [rd_eq]
    exact h
  rw [bind_of_ok (getCore_run m), ← rd_eq]
  simp only [hrd, if_false]
  rw [if_pos himm]
  rfl

theorem slli_performs :
    PerformsInst (execCSlli inst) m (.comp (.shiftImm .sll (field (inst.setWidth 16) 7 5)
      (field (inst.setWidth 16) 7 5) (imm6 (inst.setWidth 16)))) := by
  have hrun := cAluImm_run m (.inr (.inl rfl)) (RVC.rd inst) (RVC.imm6 inst)
  rw [rd_eq, imm6_eq] at hrun
  unfold execCSlli
  dsimp only
  rw [rd_eq, imm6_eq]
  exact hrun

/-- Bits 11 and 10 of C_ALU. -/
theorem alu_bits {v : BitVec 2} (h : field (inst.setWidth 16) 10 2 = v) :
    binaryConcat inst 11 11 0 = (v.extractLsb' 1 1).setWidth 32 ∧
      binaryConcat inst 10 10 0 = (v.extractLsb' 0 1).setWidth 32 := by
  subst h
  rw [binaryConcat_field inst (by rfl) (by decide) (by decide),
    binaryConcat_field inst (by rfl) (by decide) (by decide)]
  constructor
  · refine BitVec.eq_of_getLsbD_eq fun i hi => ?_
    simp only [BitVec.getLsbD_setWidth, BitVec.getLsbD_extractLsb']
    grind
  · refine BitVec.eq_of_getLsbD_eq fun i hi => ?_
    simp only [BitVec.getLsbD_setWidth, BitVec.getLsbD_extractLsb']
    grind

theorem aluShift_performs (op : ShiftOp)
    (h : op = .srl ∧ field (inst.setWidth 16) 10 2 = 0b00 ∨
      op = .sra ∧ field (inst.setWidth 16) 10 2 = 0b01) :
    PerformsInst (execCAlu inst) m (.comp (.shiftImm op (creg (field (inst.setWidth 16) 7 3))
      (creg (field (inst.setWidth 16) 7 3)) (imm6 (inst.setWidth 16)))) := by
  have hop : (if binaryConcat inst 10 10 0 ≠ 0 then ALUOp.sra else .srl) = sourceOp op.toAlu ∧
      binaryConcat inst 11 11 0 = 0 := by
    rcases h with ⟨rfl, h⟩ | ⟨rfl, h⟩
    · rw [(alu_bits inst h).1, (alu_bits inst h).2]
      exact ⟨rfl, rfl⟩
    · rw [(alu_bits inst h).1, (alu_bits inst h).2]
      exact ⟨rfl, rfl⟩
  have hskip : op.toAlu = .add ∨ op.toAlu = .sll ∨ op.toAlu = .srl ∨ op.toAlu = .sra := by
    cases op <;> decide
  have hrun := cAluImm_run m hskip (RVC.highReg inst) (RVC.imm6 inst)
  rw [highReg_eq, imm6_eq] at hrun
  refine performs_of_run m ?_ hrun
  unfold execCAlu
  rw [bind_of_ok (getCore_run m)]
  dsimp only
  rw [if_pos hop.2, hop.1, highReg_eq, imm6_eq]

theorem aluAndi_performs (h : field (inst.setWidth 16) 10 2 = 0b10) :
    PerformsInst (execCAlu inst) m (.comp (.opImm .and (creg (field (inst.setWidth 16) 7 3))
      (creg (field (inst.setWidth 16) 7 3)) ((imm6 (inst.setWidth 16)).signExtend 12))) := by
  obtain ⟨h11, h10⟩ := alu_bits inst h
  have hrun := cAlu_run m (RVC.highReg inst) (aluValue_double _ (RVC.imm6Signed inst) .and)
  rw [highReg_eq, imm6Signed_eq] at hrun
  refine performs_of_run m ?_ hrun
  unfold execCAlu
  rw [bind_of_ok (getCore_run m), h11, h10, highReg_eq, imm6Signed_eq]
  rfl

theorem aluReg_performs {i : Comp} (h : field (inst.setWidth 16) 10 2 = 0b11)
    (hi : expandCA (inst.setWidth 16) = some i) :
    PerformsInst (execCAlu inst) m (.comp i) := by
  obtain ⟨h11, h10⟩ := alu_bits inst h
  have h12 : binaryConcat inst 12 12 0 = (field (inst.setWidth 16) 12 1).setWidth 32 :=
    binaryConcat_field inst (by rfl) (by decide) (by decide)
  have hfunct2 : (binaryConcat inst 6 5 0).setWidth 2 = field (inst.setWidth 16) 5 2 := by
    rw [binaryConcat_field inst (by rfl) (by decide) (by decide),
      BitVec.setWidth_setWidth_of_le _ (by decide), BitVec.setWidth_eq]
  have hdouble : ∀ op rd rs2, PerformsInst (cAlu rd (m.core.gpr rs2) (sourceOp op) false) m
      (.comp (.reg op rd rd rs2)) := fun op rd rs2 => cAlu_run m _ (aluValue_double _ _ op)
  have hword : ∀ op rd rs2, PerformsInst (cAlu rd (m.core.gpr rs2) (sourceOp op.toAlu) true) m
      (.comp (.regW op rd rd rs2)) := fun op rd rs2 => cAlu_run m _ (aluValue_word _ _ op)
  have hcode := congrFun (execCAlu.eq_def inst) m
  rw [bind_of_ok (getCore_run m), h11, h10, highReg_eq, h12, hfunct2, lowReg_eq] at hcode
  unfold expandCA at hi
  dsimp only at hi hcode
  split at hi
  case h_7 => cases hi
  all_goals
    rename_i hb hf
    rw [hb, hf] at hcode
    cases hi
  · exact performs_of_run m hcode (hdouble .sub _ _)
  · exact performs_of_run m hcode (hdouble .xor _ _)
  · exact performs_of_run m hcode (hdouble .or _ _)
  · exact performs_of_run m hcode (hdouble .and _ _)
  · exact performs_of_run m hcode (hword .sub _ _)
  · exact performs_of_run m hcode (hword .add _ _)

theorem j_performs :
    PerformsInst (execCJ inst) m (.jal 0 ((immJ (inst.setWidth 16)).signExtend 20)) := by
  have hjump := cJump_performs m (m.core.currentProgramCounter + 2) (RVC.immJ inst)
  rw [immJ_eq] at hjump
  unfold execCJ
  rw [immJ_eq]
  exact hjump

/-- C.BEQZ and C.BNEZ; a branch that is not taken goes on behind the instruction. -/
theorem branch_performs (h0 : m.core.gpr 0 = 0) {op : BranchOp} {x : Emu β ExecFlags}
    (hrun : x m = (if op.taken (m.core.gpr (RVC.highReg inst)) 0 then cJump (RVC.immB inst)
      else return retired) m) :
    PerformsInst x m (.branch op (creg (field (inst.setWidth 16) 7 3)) 0
      ((immB (inst.setWidth 16)).signExtend 12)) := by
  refine performs_of_run m hrun ?_
  simp only [PerformsInst, Inst.effect]
  rw [h0, highReg_eq, immB_eq]
  split
  · exact cJump_performs m _ _
  · exact .inr ⟨rfl, rfl, rfl⟩

theorem beqz_performs (h0 : m.core.gpr 0 = 0) :
    PerformsInst (execCBeqz inst) m (.branch .eq (creg (field (inst.setWidth 16) 7 3)) 0
      ((immB (inst.setWidth 16)).signExtend 12)) := by
  refine branch_performs m inst h0 ?_
  unfold execCBeqz
  rw [bind_of_ok (getCore_run m)]
  exact congrFun (ite_congr (propext beq_iff_eq.symm) (fun _ => rfl) fun _ => rfl) m

theorem bnez_performs (h0 : m.core.gpr 0 = 0) :
    PerformsInst (execCBnez inst) m (.branch .ne (creg (field (inst.setWidth 16) 7 3)) 0
      ((immB (inst.setWidth 16)).signExtend 12)) := by
  refine branch_performs m inst h0 ?_
  unfold execCBnez
  rw [bind_of_ok (getCore_run m)]
  exact congrFun (ite_congr (propext bne_iff_ne.symm) (fun _ => rfl) fun _ => rfl) m

omit [SlaveAtomicIOI β] in
/-- C.JR, C.MV, C.EBREAK, C.JALR and C.ADD on the fields that the manual names. -/
theorem jrMvEbJalrAdd_run : execCJrMvEbJalrAdd inst m =
    (let rd := field (inst.setWidth 16) 7 5
      let rs2 := field (inst.setWidth 16) 2 5
      if field (inst.setWidth 16) 12 1 ≠ 0 then
        if rs2 = 0 then
          if rd = 0 then do
            ebreak
            return retired
          else jumpTo (clearBit0 (m.core.gpr rd)) (some (1, m.core.currentProgramCounter + 2))
        else cAlu rd (m.core.gpr rs2) .add false
      else if rs2 = 0 then
        if rd = 0 then return instrIllegal else jumpTo (clearBit0 (m.core.gpr rd)) none
      else do
        setGPR rd (m.core.gpr rs2)
        return retired) m := by
  have h12 : binaryConcat inst 12 12 0 ≠ 0 ↔ field (inst.setWidth 16) 12 1 ≠ 0 := by
    rw [binaryConcat_field inst (by rfl) (by decide) (by decide)]
    generalize field (inst.setWidth 16) 12 1 = x
    revert x
    decide
  unfold execCJrMvEbJalrAdd
  rw [bind_of_ok (getCore_run m), rd_eq, rs2_eq]
  exact congrFun (ite_congr (propext h12) (fun _ => rfl) fun _ => rfl) m

theorem jrMvEbJalrAdd_performs {i : Inst} (h0 : i.isMemory = false → m.core.gpr 0 = 0)
    (h : expandCR (inst.setWidth 16) = some i) :
    PerformsInst (execCJrMvEbJalrAdd inst) m i := by
  refine performs_of_run m (jrMvEbJalrAdd_run m inst) ?_
  unfold expandCR at h
  dsimp only at h ⊢
  split at h
  · rename_i hb
    rw [if_neg fun hne => hne hb]
    split at h
    · rename_i hrs2
      rw [if_pos hrs2]
      split at h
      · cases h
      · rename_i hrd
        rw [if_neg hrd]
        cases h
        exact jumpTo_performs m (.inl ⟨rfl, rfl⟩) _
    · rename_i hrs2
      rw [if_neg hrs2]
      cases h
      -- C.MV adds to `x0`
      have hvalue : AluOp.add.value (m.core.gpr 0) (m.core.gpr (field (inst.setWidth 16) 2 5)) =
          m.core.gpr (field (inst.setWidth 16) 2 5) := by
        rw [value_add, h0 rfl]
        exact BitVec.zero_add _
      simp only [PerformsInst, Inst.effect, Performs, Comp.rd, Comp.value, hvalue]
      rfl
  · rename_i hb
    rw [if_pos hb]
    split at h
    · rename_i hrs2
      rw [if_pos hrs2]
      split at h
      · rename_i hrd
        rw [if_pos hrd]
        cases h
        rfl
      · rename_i hrd
        rw [if_neg hrd]
        cases h
        exact jumpTo_performs m (.inr rfl) _
    · rename_i hrs2
      rw [if_neg hrs2]
      cases h
      exact cAlu_run m _ (aluValue_double _ _ .add)

end Cases

section Quadrants

variable {β : Type} [SlaveAtomicIOI β] (m : Machine β) (inst : BitVec 32) {i : Inst}

theorem quadrant0_performs (hq : field (inst.setWidth 16) 0 2 = 0b00)
    (h : expand0 (inst.setWidth 16) = some i) : PerformsInst (execRvc inst) m i := by
  unfold execRvc
  rw [opcode_eq, hq]
  unfold expand0 at h
  dsimp only at h
  split at h
  case h_6 => cases h
  all_goals
    rename_i hf
    rw [hf]
  · split at h
    · cases h
    · rename_i hne
      cases h
      exact addi4spn_performs m inst hne
  · cases h
    rw [← highReg_eq, ← lowReg_eq]
    exact cLoad_performs m (immW_eq inst) _ _ .word
  · cases h
    rw [← highReg_eq, ← lowReg_eq]
    exact cLoad_performs m (immD_eq inst) _ _ .double
  · cases h
    rw [← highReg_eq, ← lowReg_eq]
    exact cStore_performs m (immW_eq inst) _ _ .word
  · cases h
    rw [← highReg_eq, ← lowReg_eq]
    exact cStore_performs m (immD_eq inst) _ _ .double

theorem quadrant1_performs (h0 : i.isMemory = false → m.core.gpr 0 = 0)
    (hq : field (inst.setWidth 16) 0 2 = 0b01) (h : expand1 (inst.setWidth 16) = some i) :
    PerformsInst (execRvc inst) m i := by
  unfold execRvc
  rw [opcode_eq, hq]
  unfold expand1 at h
  dsimp only at h
  split at h
  case h_9 => cases h
  all_goals
    rename_i hf
    rw [hf]
  · cases h
    exact addi_performs m inst
  · split at h
    · cases h
    · cases h
      exact addiw_performs m inst
  · cases h
    exact li_performs m inst (h0 rfl)
  · split at h
    · rename_i hrd
      split at h
      · cases h
      · cases h
        exact addi16sp_performs m inst hrd
    · rename_i hrd
      split at h
      · cases h
      · rename_i hne
        cases h
        exact lui_performs m inst hrd hne
  · split at h
    · rename_i hfunct
      cases h
      exact aluShift_performs m inst .srl (.inl ⟨rfl, hfunct⟩)
    · rename_i hfunct
      cases h
      exact aluShift_performs m inst .sra (.inr ⟨rfl, hfunct⟩)
    · rename_i hfunct
      cases h
      exact aluAndi_performs m inst hfunct
    · rename_i hfunct
      obtain ⟨j, hj, rfl⟩ := Option.map_eq_some_iff.mp h
      exact aluReg_performs m inst hfunct hj
    · cases h
  · cases h
    exact j_performs m inst
  · cases h
    exact beqz_performs m inst (h0 rfl)
  · cases h
    exact bnez_performs m inst (h0 rfl)

theorem quadrant2_performs (h0 : i.isMemory = false → m.core.gpr 0 = 0)
    (hq : field (inst.setWidth 16) 0 2 = 0b10) (h : expand2 (inst.setWidth 16) = some i) :
    PerformsInst (execRvc inst) m i := by
  unfold execRvc
  rw [opcode_eq, hq]
  unfold expand2 at h
  dsimp only at h
  split at h
  case h_7 => cases h
  all_goals
    rename_i hf
    rw [hf]
  · cases h
    exact slli_performs m inst
  · split at h
    · cases h
    · cases h
      rw [← rd_eq]
      exact cLoad_performs m (immLwsp_eq inst) 2 _ .word
  · split at h
    · cases h
    · cases h
      rw [← rd_eq]
      exact cLoad_performs m (immLdsp_eq inst) 2 _ .double
  · exact jrMvEbJalrAdd_performs m inst h0 h
  · cases h
    rw [← rs2_eq]
    exact cStore_performs m (immSwsp_eq inst) 2 _ .word
  · cases h
    rw [← rs2_eq]
    exact cStore_performs m (immSdsp_eq inst) 2 _ .double

/-- The code of a compressed instruction performs the effect of its expansion; a load or a store
does so whatever `x0` holds. -/
theorem rvc_performs (h0 : i.isMemory = false → m.core.gpr 0 = 0)
    (h : expand (inst.setWidth 16) = some i) : PerformsInst (execRvc inst) m i := by
  unfold expand at h
  split at h
  · rename_i hq
    exact quadrant0_performs m inst hq h
  · rename_i hq
    exact quadrant1_performs m inst h0 hq h
  · rename_i hq
    exact quadrant2_performs m inst h0 hq h
  · cases h

omit [SlaveAtomicIOI β] in
theorem isCompressed_of_expand (h : expand (inst.setWidth 16) = some i) :
    isCompressed inst = true := by
  have hlow : RVInst.opcode inst &&& 0b11 = (field (inst.setWidth 16) 0 2).setWidth 7 := by
    have h3 : (0b11 : BitVec 7) = 1#7 <<< 2 - 1 := rfl
    refine BitVec.eq_of_getLsbD_eq fun i hi => ?_
    simp only [h3, RVInst.opcode, BitVec.getLsbD_and, getLsbD_lowMask, BitVec.getLsbD_setWidth,
      BitVec.getLsbD_extractLsb']
    grind
  unfold isCompressed
  rw [hlow]
  unfold expand at h
  split at h
  case h_4 => cases h
  all_goals
    rename_i hq
    rw [hq]
    rfl

end Quadrants

end NextEmu.Simple.RvcConformance
