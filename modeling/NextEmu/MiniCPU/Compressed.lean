import NextEmu.MiniCPU.Exec
import NextEmu.Simple.Compressed

/-!
# Execution of compressed instructions on the MiniCPU

The second half of `MiniCPU_ns::RV64Core::step`. The fields and immediates are taken out of the
word as in `rvcore_simple`.
-/

namespace NextEmu.MiniCPU

open NextEmu.Sdk NextEmu.Simple

variable {β : Type} [SlaveAtomicIOI β]

/-- `C_ADDI4SPN`. -/
def execCAddi4spn (inst : BitVec 32) : Emu β ExecFlags := do
  let x ← getCtx
  let imm := RVC.immAddi4spn inst
  if imm ≠ 0 then
    setGPR (RVC.lowReg inst) (x.gpr 2 + imm)
    return retired
  else return instrIllegal

/-- C.LW, C.LD, C.LWSP and C.LDSP: base register, offset, size and destination. -/
def cLoad (base : BitVec 5) (imm : BitVec 64) (size : Nat) (rd : BitVec 5) :
    Emu β ExecFlags := do
  let x ← getCtx
  loadGPR (x.gpr base + imm) size (·.signExtend 64) rd

/-- C.SW, C.SD, C.SWSP and C.SDSP. -/
def cStore (base : BitVec 5) (imm : BitVec 64) (size : Nat) (rs2 : BitVec 5) :
    Emu β ExecFlags := do
  let x ← getCtx
  memWrite (x.gpr base + imm) size (x.gpr rs2)
  return retired

def execCLw (inst : BitVec 32) : Emu β ExecFlags :=
  cLoad (RVC.highReg inst) (RVC.immW inst) 4 (RVC.lowReg inst)
def execCLd (inst : BitVec 32) : Emu β ExecFlags :=
  cLoad (RVC.highReg inst) (RVC.immD inst) 8 (RVC.lowReg inst)
def execCSw (inst : BitVec 32) : Emu β ExecFlags :=
  cStore (RVC.highReg inst) (RVC.immW inst) 4 (RVC.lowReg inst)
def execCSd (inst : BitVec 32) : Emu β ExecFlags :=
  cStore (RVC.highReg inst) (RVC.immD inst) 8 (RVC.lowReg inst)
def execCLwsp (inst : BitVec 32) : Emu β ExecFlags := cLoad 2 (RVC.immLwsp inst) 4 (RVC.rd inst)
def execCLdsp (inst : BitVec 32) : Emu β ExecFlags := cLoad 2 (RVC.immLdsp inst) 8 (RVC.rd inst)
def execCSwsp (inst : BitVec 32) : Emu β ExecFlags := cStore 2 (RVC.immSwsp inst) 4 (RVC.rs2 inst)
def execCSdsp (inst : BitVec 32) : Emu β ExecFlags := cStore 2 (RVC.immSdsp inst) 8 (RVC.rs2 inst)

/-- `GPR[rd] = alu_exec(GPR[rd], b, op, op_32)`. -/
def cAlu (rd : BitVec 5) (b : BitVec 64) (op : ALUOp) (op32 : Bool) : Emu β ExecFlags := do
  let x ← getCtx
  aluGPR rd (x.gpr rd) b op op32

def execCAddi (inst : BitVec 32) : Emu β ExecFlags :=
  let imm := RVC.imm6Signed inst
  if imm ≠ 0 then cAlu (RVC.rd inst) imm .add false else return retired

def execCAddiw (inst : BitVec 32) : Emu β ExecFlags :=
  cAlu (RVC.rd inst) (RVC.imm6Signed inst) .add true

def execCLi (inst : BitVec 32) : Emu β ExecFlags := do
  setGPR (RVC.rd inst) (RVC.imm6Signed inst)
  return retired

/-- `C_ADDI16SPN_LUI`. -/
def execCAddi16spLui (inst : BitVec 32) : Emu β ExecFlags := do
  let x ← getCtx
  let rd := RVC.rd inst
  if rd = 2 then
    let imm := RVC.immAddi16sp inst
    if imm ≠ 0 then
      setGPR rd (x.gpr rd + imm)
  else
    let imm := RVC.immLui inst
    if imm ≠ 0 then
      setGPR rd imm
  return retired

/-- `C_ALU`. -/
def execCAlu (inst : BitVec 32) : Emu β ExecFlags := do
  let x ← getCtx
  let rs1 := RVC.highReg inst
  if binaryConcat inst 11 11 0 = 0 then
    let imm := RVC.imm6 inst
    if imm ≠ 0 then
      cAlu rs1 imm (if binaryConcat inst 10 10 0 ≠ 0 then .sra else .srl) false
    else return retired
  else if binaryConcat inst 10 10 0 = 0 then
    cAlu rs1 (RVC.imm6Signed inst) .and false
  else
    let src := x.gpr (RVC.lowReg inst)
    let instr12 := binaryConcat inst 12 12 0 != 0
    match (binaryConcat inst 6 5 0).setWidth 2 with
    | 0b00 => cAlu rs1 src .sub instr12
    | 0b01 => cAlu rs1 src (if instr12 then .add else .xor) instr12
    | 0b10 => if instr12 then return instrIllegal else cAlu rs1 src .or false
    | _ => if instr12 then return instrIllegal else cAlu rs1 src .and false

/-- A compressed jump or branch: the target is not checked for alignment. -/
def cJump (imm : BitVec 64) : Emu β ExecFlags := do
  let x ← getCtx
  setPC (x.currentProgramCounter + imm)
  return newPCSet

def execCJ (inst : BitVec 32) : Emu β ExecFlags := cJump (RVC.immJ inst)

def execCBeqz (inst : BitVec 32) : Emu β ExecFlags := do
  let x ← getCtx
  if x.gpr (RVC.highReg inst) = 0 then cJump (RVC.immB inst) else return retired

def execCBnez (inst : BitVec 32) : Emu β ExecFlags := do
  let x ← getCtx
  if x.gpr (RVC.highReg inst) ≠ 0 then cJump (RVC.immB inst) else return retired

def execCSlli (inst : BitVec 32) : Emu β ExecFlags :=
  let imm := RVC.imm6 inst
  if imm ≠ 0 then cAlu (RVC.rd inst) imm .sll false else return retired

/-- `C_JR_MV_EB_JALR_ADD`. -/
def execCJrMvEbJalrAdd (inst : BitVec 32) : Emu β ExecFlags := do
  let x ← getCtx
  let rs1 := RVC.rd inst
  let rs2 := RVC.rs2 inst
  if binaryConcat inst 12 12 0 ≠ 0 then
    if rs2 = 0 then
      if rs1 = 0 then
        ebreak
        return retired
      else jumpTo (clearBit0 (x.gpr rs1)) (some (1, x.currentProgramCounter + 2))
    else cAlu rs1 (x.gpr rs2) .add false
  else if rs2 = 0 then
    if rs1 = 0 then return instrIllegal
    else jumpTo (clearBit0 (x.gpr rs1)) none
  else
    setGPR rs1 (x.gpr rs2)
    return retired

/-- The `switch` over `rvc_opcode`. -/
def execRvc (inst : BitVec 32) : Emu β ExecFlags :=
  match COpCode.ofBits (RVC.opcode inst) with
  | some .addi4spn => execCAddi4spn inst
  | some .lw => execCLw inst
  | some .ld => execCLd inst
  | some .sw => execCSw inst
  | some .sd => execCSd inst
  | some .addi => execCAddi inst
  | some .addiw => execCAddiw inst
  | some .li => execCLi inst
  | some .addi16spLui => execCAddi16spLui inst
  | some .alu => execCAlu inst
  | some .j => execCJ inst
  | some .beqz => execCBeqz inst
  | some .bnez => execCBnez inst
  | some .slli => execCSlli inst
  | some .lwsp => execCLwsp inst
  | some .ldsp => execCLdsp inst
  | some .jrMvEbJalrAdd => execCJrMvEbJalrAdd inst
  | some .swsp => execCSwsp inst
  | some .sdsp => execCSdsp inst
  | none => return instrIllegal

end NextEmu.MiniCPU
