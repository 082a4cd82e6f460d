import NextEmu.Simple.AluConformance
import NextEmu.Simple.Conformance

/-!
# The computational instructions

LUI, AUIPC, OP-IMM, OP-IMM-32, OP and OP-32: the decoder finds the fields that the
encoder laid out, it selects the operation that the fields name, and the ALU has its
value.
-/

namespace NextEmu.Simple.IntegerConformance

open NextEmu.Lib.AbortState NextEmu.Lib.BitField NextEmu.Lib.RiscV NextEmu.Sdk
open AluConformance Conformance PreciseTraps

/-! ## Fields of an encoded word -/

section Fields

variable (funct7 : BitVec 7) (rs2 rs1 : BitVec 5) (funct3 : BitVec 3) (rd : BitVec 5)
  (opcode : BitVec 7) (imm : BitVec 12) (imm20 : BitVec 20)

theorem opcode_rType : RVInst.opcode (rType funct7 rs2 rs1 funct3 rd opcode) = opcode := by
  unfold RVInst.opcode rType
  rw [field_low _ _ (by decide), field_all]

theorem rd_rType : RVInst.rd (rType funct7 rs2 rs1 funct3 rd opcode) = rd := by
  unfold RVInst.rd rType
  rw [field_high _ _ (by decide), field_low _ _ (by decide), field_all]

theorem funct3_rType : RVInst.funct3 (rType funct7 rs2 rs1 funct3 rd opcode) = funct3 := by
  unfold RVInst.funct3 rType
  rw [field_high _ _ (by decide), field_high _ _ (by decide), field_low _ _ (by decide), field_all]

theorem rs1_rType : RVInst.rs1 (rType funct7 rs2 rs1 funct3 rd opcode) = rs1 := by
  unfold RVInst.rs1 rType
  rw [field_high _ _ (by decide), field_high _ _ (by decide), field_high _ _ (by decide),
    field_low _ _ (by decide), field_all]

theorem rs2_rType : RVInst.rs2 (rType funct7 rs2 rs1 funct3 rd opcode) = rs2 := by
  unfold RVInst.rs2 rType
  rw [field_high _ _ (by decide), field_high _ _ (by decide), field_high _ _ (by decide),
    field_high _ _ (by decide), field_low _ _ (by decide), field_all]

theorem funct7_rType : RVInst.funct7 (rType funct7 rs2 rs1 funct3 rd opcode) = funct7 := by
  unfold RVInst.funct7 rType
  rw [field_high _ _ (by decide), field_high _ _ (by decide), field_high _ _ (by decide),
    field_high _ _ (by decide), field_high _ _ (by decide), field_all]

/-- The immediate format is the register format with the immediate in two of its fields. -/
theorem iType_eq : iType imm rs1 funct3 rd opcode =
    rType (field imm 5 7) (field imm 0 5) rs1 funct3 rd opcode := by
  have himm : imm = field imm 5 7 ++ field imm 0 5 := by
    refine BitVec.eq_of_getLsbD_eq fun i hi => ?_
    simp only [BitVec.getLsbD_append, BitVec.getLsbD_extractLsb']
    grind
  unfold iType rType
  rw [← himm]

theorem iImm12_iType : RVInst.iImm12 (iType imm rs1 funct3 rd opcode) = imm.signExtend 64 := by
  unfold RVInst.iImm12 iType
  rw [field_high _ _ (by decide), field_high _ _ (by decide), field_high _ _ (by decide),
    field_high _ _ (by decide), field_all]

theorem opcode_uType : RVInst.opcode (uType imm20 rd opcode) = opcode := by
  unfold RVInst.opcode uType
  rw [field_low _ _ (by decide), field_all]

theorem rd_uType : RVInst.rd (uType imm20 rd opcode) = rd := by
  unfold RVInst.rd uType
  rw [field_high _ _ (by decide), field_low _ _ (by decide), field_all]

theorem uImm_uType : RVInst.uImm (uType imm20 rd opcode) = (imm20 ++ 0#12).signExtend 64 := by
  unfold RVInst.uImm uType
  rw [field_high _ _ (by decide), field_high _ _ (by decide), field_all]
  refine BitVec.eq_of_getLsbD_eq fun i hi => ?_
  simp only [BitVec.getLsbD_shiftLeft, BitVec.getLsbD_signExtend, BitVec.getLsbD_append,
    BitVec.msb_append, BitVec.getLsbD_zero]
  grind

end Fields

/-! ## Decoding -/

section Decode

theorem decodeOp_encode (op : AluOp) (rd rs1 rs2 : BitVec 5) :
    decodeOp (rType op.funct7 rs2 rs1 op.funct3 rd 0b0110011) = some (sourceOp op) := by
  unfold decodeOp
  rw [funct7_rType, funct3_rType]
  cases op <;> rfl

theorem decodeOp32_encode (op : WordOp) (rd rs1 rs2 : BitVec 5) :
    decodeOp32 (rType op.toAlu.funct7 rs2 rs1 op.toAlu.funct3 rd 0b0111011) =
      some (sourceOp op.toAlu) := by
  unfold decodeOp32
  rw [funct7_rType, funct3_rType]
  cases op <;> rfl

theorem decodeOpImm_imm (op : ImmOp) (rd rs1 : BitVec 5) (imm : BitVec 12) :
    decodeOpImm (iType imm rs1 op.toAlu.funct3 rd 0b0010011) =
      some (sourceOp op.toAlu, imm.signExtend 64) := by
  have hf3 : RVInst.funct3 (iType imm rs1 op.toAlu.funct3 rd 0b0010011) = op.toAlu.funct3 := by
    rw [iType_eq, funct3_rType]
  unfold decodeOpImm
  simp only [hf3, iImm12_iType]
  cases op <;> rfl

/-- The decoder tells the shifts by the upper six bits of `funct7`; the rest is the amount. -/
theorem decodeOpImm_shift (op : ShiftOp) (rd rs1 : BitVec 5) (shamt : BitVec 6) :
    decodeOpImm (iType (op.toAlu.funct7.extractLsb' 1 6 ++ shamt) rs1 op.toAlu.funct3 rd
      0b0010011) = some (sourceOp op.toAlu, shamt.setWidth 64) := by
  unfold decodeOpImm
  rw [iImm12_iType, iType_eq, funct7_rType, funct3_rType]
  -- what is left depends on the operation and the amount alone
  cases op <;> (revert shamt; decide)

theorem decodeOpImm32_add (rd rs1 : BitVec 5) (imm : BitVec 12) :
    decodeOpImm32 (iType imm rs1 0b000 rd 0b0011011) = some (.add, imm.signExtend 64) := by
  have hf3 : RVInst.funct3 (iType imm rs1 0b000 rd 0b0011011) = 0b000 := by
    rw [iType_eq, funct3_rType]
  unfold decodeOpImm32
  simp only [hf3, iImm12_iType]
  rfl

theorem decodeOpImm32_shift (op : ShiftOp) (rd rs1 shamt : BitVec 5) :
    decodeOpImm32 (iType (op.toAlu.funct7 ++ shamt) rs1 op.toAlu.funct3 rd 0b0011011) =
      some (sourceOp op.toAlu, shamt.setWidth 64) := by
  unfold decodeOpImm32
  rw [iImm12_iType, iType_eq, funct7_rType, funct3_rType]
  cases op <;> (revert shamt; decide)

end Decode

/-! ## Execution -/

section Execute

variable {β : Type} (m : Machine β)

theorem aluGPR_run {a b v : BitVec 64} {op : ALUOp} {op32 : Bool}
    (h : aluValue a b op op32 = some v) (rd : BitVec 5) :
    aluGPR rd a b op op32 m = .ok retired { m with core := m.core.setGPR rd v } := by
  have hrun : (aluExec a b op op32 : Emu β (BitVec 64)) m = .ok v m := by
    unfold aluExec
    rw [h]
    rfl
  unfold aluGPR
  rw [bind_of_ok hrun, bind_of_ok (setGPR_run rd v m)]
  rfl

theorem execImm_run {inst : BitVec 32} {decoded : Option (ALUOp × BitVec 64)} {op : ALUOp}
    {imm v : BitVec 64} {op32 : Bool} (hd : decoded = some (op, imm))
    (h : aluValue (m.core.gpr (RVInst.rs1 inst)) imm op op32 = some v) :
    execImm decoded op32 inst m =
      .ok retired { m with core := m.core.setGPR (RVInst.rd inst) v } := by
  rw [hd]
  unfold execImm
  dsimp only
  rw [bind_of_ok (getCore_run m)]
  exact aluGPR_run m h _

theorem execReg_run {inst : BitVec 32} {decoded : Option ALUOp} {op : ALUOp} {v : BitVec 64}
    {op32 : Bool} (hd : decoded = some op)
    (h : aluValue (m.core.gpr (RVInst.rs1 inst)) (m.core.gpr (RVInst.rs2 inst)) op op32 = some v) :
    execReg decoded op32 inst m =
      .ok retired { m with core := m.core.setGPR (RVInst.rd inst) v } := by
  rw [hd]
  unfold execReg
  dsimp only
  rw [bind_of_ok (getCore_run m)]
  exact aluGPR_run m h _

theorem aluValue_shiftW (a b : BitVec 64) (op : ShiftOp) :
    aluValue a b (sourceOp op.toAlu) true = some (op.toAlu.wordValue a b) := by
  cases op with
  | sll => exact aluValue_word a b .sll
  | srl => exact aluValue_word a b .srl
  | sra => exact aluValue_word a b .sra

/-- The major opcode of a computational instruction. -/
def majorOf : Comp → OpCode
  | .lui _ _ => .lui
  | .auipc _ _ => .auipc
  | .opImm .. | .shiftImm .. => .opImm
  | .addiw .. | .shiftImmW .. => .opImm32
  | .reg .. => .op
  | .regW .. => .op32

theorem opcode_encode (i : Comp) :
    OpCode.ofBits (RVInst.opcode i.encode) = some (majorOf i) ∧ isCompressed i.encode = false := by
  unfold isCompressed
  cases i with
  | lui rd imm => rw [Comp.encode, opcode_uType]; exact ⟨rfl, rfl⟩
  | auipc rd imm => rw [Comp.encode, opcode_uType]; exact ⟨rfl, rfl⟩
  | opImm op rd rs1 imm => rw [Comp.encode, iType_eq, opcode_rType]; exact ⟨rfl, rfl⟩
  | shiftImm op rd rs1 shamt => rw [Comp.encode, iType_eq, opcode_rType]; exact ⟨rfl, rfl⟩
  | addiw rd rs1 imm => rw [Comp.encode, iType_eq, opcode_rType]; exact ⟨rfl, rfl⟩
  | shiftImmW op rd rs1 shamt => rw [Comp.encode, iType_eq, opcode_rType]; exact ⟨rfl, rfl⟩
  | reg op rd rs1 rs2 => rw [Comp.encode, opcode_rType]; exact ⟨rfl, rfl⟩
  | regW op rd rs1 rs2 => rw [Comp.encode, opcode_rType]; exact ⟨rfl, rfl⟩

theorem rd_encode (i : Comp) : RVInst.rd i.encode = i.rd := by
  cases i with
  | lui rd imm => exact rd_uType rd _ imm
  | auipc rd imm => exact rd_uType rd _ imm
  | opImm op rd rs1 imm => rw [Comp.encode, iType_eq, rd_rType]; rfl
  | shiftImm op rd rs1 shamt => rw [Comp.encode, iType_eq, rd_rType]; rfl
  | addiw rd rs1 imm => rw [Comp.encode, iType_eq, rd_rType]; rfl
  | shiftImmW op rd rs1 shamt => rw [Comp.encode, iType_eq, rd_rType]; rfl
  | reg op rd rs1 rs2 => exact rd_rType _ rs2 rs1 _ rd _
  | regW op rd rs1 rs2 => exact rd_rType _ rs2 rs1 _ rd _

/-- The code of a computational instruction writes its value to its register. -/
theorem comp_run [SlaveAtomicIOI β] (i : Comp) : exec32 i.encode m =
    .ok retired { m with
      core := m.core.setGPR i.rd (i.value m.core.gpr m.core.currentProgramCounter) } := by
  have hop := (opcode_encode i).1
  have hrd := rd_encode i
  unfold exec32
  rw [hop, ← hrd]
  cases i with
  | lui rd imm =>
    have himm : RVInst.uImm (Comp.lui rd imm).encode = _ := uImm_uType rd _ imm
    simp only [majorOf, execLui]
    rw [himm]
    rfl
  | auipc rd imm =>
    have himm : RVInst.uImm (Comp.auipc rd imm).encode = _ := uImm_uType rd _ imm
    simp only [majorOf, execAuipc]
    rw [bind_of_ok (getCore_run m), himm, BitVec.add_comm]
    rfl
  | opImm op rd rs1 imm =>
    have hrs1 : RVInst.rs1 (Comp.opImm op rd rs1 imm).encode = rs1 := by
      rw [Comp.encode, iType_eq, rs1_rType]
    refine execImm_run m (decodeOpImm_imm op rd rs1 imm) ?_
    rw [hrs1]
    exact aluValue_double _ _ op.toAlu
  | shiftImm op rd rs1 shamt =>
    have hrs1 : RVInst.rs1 (Comp.shiftImm op rd rs1 shamt).encode = rs1 := by
      rw [Comp.encode, iType_eq, rs1_rType]
    refine execImm_run m (decodeOpImm_shift op rd rs1 shamt) ?_
    rw [hrs1]
    exact aluValue_double _ _ op.toAlu
  | addiw rd rs1 imm =>
    have hrs1 : RVInst.rs1 (Comp.addiw rd rs1 imm).encode = rs1 := by
      rw [Comp.encode, iType_eq, rs1_rType]
    refine execImm_run m (decodeOpImm32_add rd rs1 imm) ?_
    rw [hrs1]
    exact aluValue_word _ _ .add
  | shiftImmW op rd rs1 shamt =>
    have hrs1 : RVInst.rs1 (Comp.shiftImmW op rd rs1 shamt).encode = rs1 := by
      rw [Comp.encode, iType_eq, rs1_rType]
    refine execImm_run m (decodeOpImm32_shift op rd rs1 shamt) ?_
    rw [hrs1]
    exact aluValue_shiftW _ _ op
  | reg op rd rs1 rs2 =>
    have hrs1 : RVInst.rs1 (Comp.reg op rd rs1 rs2).encode = rs1 := rs1_rType ..
    have hrs2 : RVInst.rs2 (Comp.reg op rd rs1 rs2).encode = rs2 := rs2_rType ..
    refine execReg_run m (decodeOp_encode op rd rs1 rs2) ?_
    rw [hrs1, hrs2]
    exact aluValue_double _ _ op
  | regW op rd rs1 rs2 =>
    have hrs1 : RVInst.rs1 (Comp.regW op rd rs1 rs2).encode = rs1 := rs1_rType ..
    have hrs2 : RVInst.rs2 (Comp.regW op rd rs1 rs2).encode = rs2 := rs2_rType ..
    refine execReg_run m (decodeOp32_encode op rd rs1 rs2) ?_
    rw [hrs1, hrs2]
    exact aluValue_word _ _ op

end Execute

/-! ## The step -/

variable {β M : Type} [SlaveAtomicIOI β]

/-- A step that fetches a computational instruction writes the manual's value to its register,
goes on to the next word, and changes no other register and no memory. -/
theorem integer_conforms (mem : β → M) (hmem : DataView mem) (s : Machine β) (i : Comp)
    (h : fetchedWord s = some i.encode) :
    Retires mem s s.bus i.rd (i.value s.core.gpr s.core.currentProgramCounter)
      (s.core.currentProgramCounter + 4) := by
  have hcomp := (opcode_encode i).2
  have hlen : (4 : BitVec 64) = if isCompressed i.encode then 2 else 4 := by
    rw [hcomp]
    rfl
  obtain ⟨hcore, hquiet⟩ := decoding_silent h
  have hrun := comp_run (decoding s i.encode) i
  rw [hcore] at hrun
  have hexec : execute i.encode (decoding s i.encode) = exec32 i.encode (decoding s i.encode) := by
    unfold execute
    rw [hcomp]
    rfl
  exact (Ran.mk h hlen (hexec.trans hrun)).retires rfl (hmem.quiet hquiet)

/-- `mulhsu x3, x1, x2` at the start of the memory, of -1 and of 2. -/
def mulhsuMachine : Machine (AddrBus Empty) :=
  Machine.start { (default : RV64Core) with
    currentProgramCounter := 0x80000000, nextPrivMode := .mMode
    gpr := fun r => if r = 1 then -1 else if r = 2 then 2 else 0 }
    (Translation.memoryBus fun a => (0x0220a1b3#32).extractLsb' (8 * a) 8)

theorem integer_conforms_mulhsu :
    Retires (fun b => b.mainMem) mulhsuMachine mulhsuMachine.bus 3 (-1) 0x80000004 :=
  integer_conforms (fun b => b.mainMem) mainMem_view mulhsuMachine (.reg .mulhsu 3 1 2)
    (by decide +kernel)

end NextEmu.Simple.IntegerConformance
