import NextEmu.Simple.Exec

/-!
# Execution of compressed instructions

The second half of `RV64Core::step`. Every immediate is put together from its bits
with `binary_concat` and is sign-extended by or-ing a mask when its highest bit is
set. A compressed register field of three bits names one of `x8` to `x15`.
-/

namespace NextEmu.Simple

open NextEmu.Sdk

/-- `if (imm >> bit) imm |= mask`. -/
def orSign (imm : BitVec 64) (bit : Nat) (mask : BitVec 64) : BitVec 64 :=
  if imm >>> bit ≠ 0 then imm ||| mask else imm

/-! The fields and immediates that the cases of the `switch` compute. -/

namespace RVC

/-- `rvc_opcode`. -/
def opcode (inst : BitVec 32) : BitVec 5 :=
  ((inst &&& 0b11) <<< 3 ||| ((inst >>> 13) &&& 0b111)).setWidth 5

/-- `binary_concat(inst.val, 11, 7, 0)`. -/
def rd (inst : BitVec 32) : BitVec 5 := (binaryConcat inst 11 7 0).setWidth 5

/-- `binary_concat(inst.val, 6, 2, 0)`. -/
def rs2 (inst : BitVec 32) : BitVec 5 := (binaryConcat inst 6 2 0).setWidth 5

/-- `8 + binary_concat(inst.val, 4, 2, 0)`. -/
def lowReg (inst : BitVec 32) : BitVec 5 := 8 + (binaryConcat inst 4 2 0).setWidth 5

/-- `8 + binary_concat(inst.val, 9, 7, 0)`. -/
def highReg (inst : BitVec 32) : BitVec 5 := 8 + (binaryConcat inst 9 7 0).setWidth 5

def immAddi4spn (inst : BitVec 32) : BitVec 64 :=
  (binaryConcat inst 12 11 4 ||| binaryConcat inst 10 7 6 ||| binaryConcat inst 6 6 2 |||
    binaryConcat inst 5 5 3).setWidth 64

/-- C.LW and C.SW. -/
def immW (inst : BitVec 32) : BitVec 64 :=
  (binaryConcat inst 6 6 2 ||| binaryConcat inst 5 5 6 ||| binaryConcat inst 12 10 3).setWidth 64

/-- C.LD and C.SD. -/
def immD (inst : BitVec 32) : BitVec 64 :=
  (binaryConcat inst 6 5 6 ||| binaryConcat inst 12 10 3).setWidth 64

/-- The six bits of C.ADDI and its like, and the shift amount, before any sign extension. -/
def imm6 (inst : BitVec 32) : BitVec 64 :=
  (binaryConcat inst 12 12 5 ||| binaryConcat inst 6 2 0).setWidth 64

def imm6Signed (inst : BitVec 32) : BitVec 64 := orSign (imm6 inst) 5 0xffffffffffffffc0

def immAddi16sp (inst : BitVec 32) : BitVec 64 :=
  orSign ((binaryConcat inst 12 12 9 ||| binaryConcat inst 6 6 4 ||| binaryConcat inst 5 5 6 |||
    binaryConcat inst 4 3 7 ||| binaryConcat inst 2 2 5).setWidth 64) 9 0xfffffffffffffc00

def immLui (inst : BitVec 32) : BitVec 64 :=
  orSign ((binaryConcat inst 12 12 17 ||| binaryConcat inst 6 2 12).setWidth 64) 17
    0xfffffffffffc0000

def immJ (inst : BitVec 32) : BitVec 64 :=
  orSign ((binaryConcat inst 12 12 11 ||| binaryConcat inst 11 11 4 |||
    binaryConcat inst 10 9 8 ||| binaryConcat inst 8 8 10 ||| binaryConcat inst 7 7 6 |||
    binaryConcat inst 6 6 7 ||| binaryConcat inst 5 3 1 ||| binaryConcat inst 2 2 5).setWidth 64)
    11 0xfffffffffffff000

/-- C.BEQZ and C.BNEZ. -/
def immB (inst : BitVec 32) : BitVec 64 :=
  orSign ((binaryConcat inst 12 12 8 ||| binaryConcat inst 11 10 3 ||| binaryConcat inst 6 5 6 |||
    binaryConcat inst 4 3 1 ||| binaryConcat inst 2 2 5).setWidth 64) 8 0xfffffffffffffe00

def immLwsp (inst : BitVec 32) : BitVec 64 :=
  (binaryConcat inst 6 4 2 ||| binaryConcat inst 3 2 6 ||| binaryConcat inst 12 12 5).setWidth 64

def immLdsp (inst : BitVec 32) : BitVec 64 :=
  (binaryConcat inst 6 5 3 ||| binaryConcat inst 4 2 6 ||| binaryConcat inst 12 12 5).setWidth 64

def immSwsp (inst : BitVec 32) : BitVec 64 :=
  (binaryConcat inst 12 9 2 ||| binaryConcat inst 8 7 6).setWidth 64

def immSdsp (inst : BitVec 32) : BitVec 64 :=
  (binaryConcat inst 12 10 3 ||| binaryConcat inst 9 7 6).setWidth 64

end RVC

variable {β : Type} [SlaveAtomicIOI β]

/-- `C_ADDI4SPN`. -/
def execCAddi4spn (inst : BitVec 32) : Emu β ExecFlags := do
  let c ← getCore
  let imm := RVC.immAddi4spn inst
  if imm ≠ 0 then
    setGPR (RVC.lowReg inst) (c.gpr 2 + imm)
    return retired
  else return instrIllegal

/-- C.LW, C.LD, C.LWSP and C.LDSP: base register, offset, size and destination. -/
def cLoad (base : BitVec 5) (imm : BitVec 64) (size : Nat) (rd : BitVec 5) :
    Emu β ExecFlags := do
  let c ← getCore
  loadGPR (c.gpr base + imm) size (·.signExtend 64) rd

/-- C.SW, C.SD, C.SWSP and C.SDSP. -/
def cStore (base : BitVec 5) (imm : BitVec 64) (size : Nat) (rs2 : BitVec 5) :
    Emu β ExecFlags := do
  let c ← getCore
  memWrite (c.gpr base + imm) size (c.gpr rs2)
  return retired

def execCLw (inst : BitVec 32) : Emu β ExecFlags :=
  cLoad (RVC.highReg inst) (RVC.immW inst) 4 (RVC.lowReg inst)
def execCLd (inst : BitVec 32) : Emu β ExecFlags :=
  cLoad (RVC.highReg inst) (RVC.immD inst) 8 (RVC.lowReg inst)
def execCSw (inst : BitVec 32) : Emu β ExecFlags :=
  cStore (RVC.highReg inst) (RVC.immW inst) 4 (RVC.lowReg inst)
def execCSd (inst : BitVec 32) : Emu β ExecFlags :=
  cStore (RVC.highReg inst) (RVC.immD inst) 8 (RVC.lowReg inst)
def execCLwsp (inst : BitVec 32) : Emu β ExecFlags := cLoad 2 (RVC.immLwsp inst) 4 (RVC.rd inst)
def execCLdsp (inst : BitVec 32) : Emu β ExecFlags := cLoad 2 (RVC.immLdsp inst) 8 (RVC.rd inst)
def execCSwsp (inst : BitVec 32) : Emu β ExecFlags := cStore 2 (RVC.immSwsp inst) 4 (RVC.rs2 inst)
def execCSdsp (inst : BitVec 32) : Emu β ExecFlags := cStore 2 (RVC.immSdsp inst) 8 (RVC.rs2 inst)

/-- `GPR[rd] = alu_exec(GPR[rd], b, op, op_32)`. -/
def cAlu (rd : BitVec 5) (b : BitVec 64) (op : ALUOp) (op32 : Bool) : Emu β ExecFlags := do
  let c ← getCore
  aluGPR rd (c.gpr rd) b op op32

def execCAddi (inst : BitVec 32) : Emu β ExecFlags :=
  let imm := RVC.imm6Signed inst
  if imm ≠ 0 then cAlu (RVC.rd inst) imm .add false else return retired

def execCAddiw (inst : BitVec 32) : Emu β ExecFlags :=
  cAlu (RVC.rd inst) (RVC.imm6Signed inst) .add true

def execCLi (inst : BitVec 32) : Emu β ExecFlags := do
  setGPR (RVC.rd inst) (RVC.imm6Signed inst)
  return retired

/-- `C_ADDI16SPN_LUI`. -/
def execCAddi16spLui (inst : BitVec 32) : Emu β ExecFlags := do
  let c ← getCore
  let rd := RVC.rd inst
  if rd = 2 then
    let imm := RVC.immAddi16sp inst
    if imm ≠ 0 then
      setGPR rd (c.gpr rd + imm)
  else
    let imm := RVC.immLui inst
    if imm ≠ 0 then
      setGPR rd imm
  return retired

/-- `C_ALU`. -/
def execCAlu (inst : BitVec 32) : Emu β ExecFlags := do
  let c ← getCore
  let rs1 := RVC.highReg inst
  if binaryConcat inst 11 11 0 = 0 then
    let imm := RVC.imm6 inst
    if imm ≠ 0 then
      cAlu rs1 imm (if binaryConcat inst 10 10 0 ≠ 0 then .sra else .srl) false
    else return retired
  else if binaryConcat inst 10 10 0 = 0 then
    cAlu rs1 (RVC.imm6Signed inst) .and false
  else
    let src := c.gpr (RVC.lowReg inst)
    let instr12 := binaryConcat inst 12 12 0 != 0
    match (binaryConcat inst 6 5 0).setWidth 2 with
    | 0b00 => cAlu rs1 src .sub instr12
    | 0b01 => cAlu rs1 src (if instr12 then .add else .xor) instr12
    | 0b10 => if instr12 then return instrIllegal else cAlu rs1 src .or false
    | _ => if instr12 then return instrIllegal else cAlu rs1 src .and false

/-- A compressed jump or branch: the target is not checked for alignment. -/
def cJump (imm : BitVec 64) : Emu β ExecFlags := do
  modifyCore fun c => { c with currentProgramCounter := c.currentProgramCounter + imm }
  return newPCSet

def execCJ (inst : BitVec 32) : Emu β ExecFlags := cJump (RVC.immJ inst)

def execCBeqz (inst : BitVec 32) : Emu β ExecFlags := do
  let c ← getCore
  if c.gpr (RVC.highReg inst) = 0 then cJump (RVC.immB inst) else return retired

def execCBnez (inst : BitVec 32) : Emu β ExecFlags := do
  let c ← getCore
  if c.gpr (RVC.highReg inst) ≠ 0 then cJump (RVC.immB inst) else return retired

def execCSlli (inst : BitVec 32) : Emu β ExecFlags :=
  let imm := RVC.imm6 inst
  if imm ≠ 0 then cAlu (RVC.rd inst) imm .sll false else return retired

/-- `if (npc & 1) npc ^= 1`. -/
def clearBit0 (npc : BitVec 64) : BitVec 64 := if npc &&& 1 ≠ 0 then npc ^^^ 1 else npc

/-- `C_JR_MV_EB_JALR_ADD`. -/
def execCJrMvEbJalrAdd (inst : BitVec 32) : Emu β ExecFlags := do
  let c ← getCore
  let rs1 := RVC.rd inst
  let rs2 := RVC.rs2 inst
  if binaryConcat inst 12 12 0 ≠ 0 then
    if rs2 = 0 then
      if rs1 = 0 then
        ebreak
        return retired
      else jumpTo (clearBit0 (c.gpr rs1)) (some (1, c.currentProgramCounter + 2))
    else cAlu rs1 (c.gpr rs2) .add false
  else if rs2 = 0 then
    if rs1 = 0 then return instrIllegal
    else jumpTo (clearBit0 (c.gpr rs1)) none
  else
    setGPR rs1 (c.gpr rs2)
    return retired

/-- The `switch` over `rvc_opcode`. -/
def execRvc (inst : BitVec 32) : Emu β ExecFlags :=
  match COpCode.ofBits (RVC.opcode inst) with
  | some .addi4spn => execCAddi4spn inst
  | some .lw => execCLw inst
  | some .ld => execCLd inst
  | some .sw => execCSw inst
  | some .sd => execCSd inst
  | some .addi => execCAddi inst
  | some .addiw => execCAddiw inst
  | some .li => execCLi inst
  | some .addi16spLui => execCAddi16spLui inst
  | some .alu => execCAlu inst
  | some .j => execCJ inst
  | some .beqz => execCBeqz inst
  | some .bnez => execCBnez inst
  | some .slli => execCSlli inst
  | some .lwsp => execCLwsp inst
  | some .ldsp => execCLdsp inst
  | some .jrMvEbJalrAdd => execCJrMvEbJalrAdd inst
  | some .swsp => execCSwsp inst
  | some .sdsp => execCSdsp inst
  | none => return instrIllegal

end NextEmu.Simple
