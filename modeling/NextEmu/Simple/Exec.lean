import NextEmu.Simple.Alu
import NextEmu.Simple.Amo
import NextEmu.Simple.Privilege

/-!
# Execution of 32-bit instructions

The `switch` over the major opcode in `RV64Core::step`, one definition for each
case of it, with `memRead` and `memWrite` of `rv64_common.cpp`. The two local
variables that a case can set, `is_new_pc_set` and `is_instr_illegal`, are its
result. `PC_ALIGN` is 2.
-/

namespace NextEmu.Simple

open NextEmu.Lib.BitField NextEmu.Sdk

/-- The local variables of `step` that the decoder sets. -/
structure ExecFlags where
  isNewPCSet : Bool := false
  isInstrIllegal : Bool := false
  deriving DecidableEq

/-- The case breaks off with neither variable set. -/
def retired : ExecFlags := {}

/-- `is_new_pc_set = true`. -/
def newPCSet : ExecFlags := { isNewPCSet := true }

/-- `is_instr_illegal = true`. -/
def instrIllegal : ExecFlags := { isInstrIllegal := true }

/-- The exception that a failed data access raises; `Exec.ok` for no exception. -/
def VAddrFeedback.memException (fb : VAddrFeedback) (accFault misalign pgfault : BitVec 63) :
    BitVec 63 :=
  match fb with
  | .accessOk => Exec.ok
  | .accessFault => accFault
  | .misAlign => misalign
  | .pageFault => pgfault

variable {β : Type} [SlaveAtomicIOI β]

/-- `memRead`; `none` where the source returns false. -/
def memRead (startAddr : BitVec 64) (size : Nat) : Emu β (Option (BitVec (8 * size))) := do
  if startAddr % BitVec.ofNat 64 size ≠ 0 then
    raiseTrap (exception Exec.loadMisalign) startAddr
    return none
  let (vaErr, data) ← vaddrReadBufferMMUAPI startAddr size
  if vaErr = .accessOk then
    return some data
  let feedback := vaErr.memException Exec.loadAccFault Exec.loadMisalign Exec.loadPgfault
  assertThat (feedback ≠ Exec.ok) .memFeedback
  raiseTrap (exception feedback) startAddr
  return none

/-- `memWrite` of the low bytes of a register. No caller uses its result. -/
def memWrite (startAddr : BitVec 64) (size : Nat) (src : BitVec 64) : Emu β Unit := do
  if startAddr % BitVec.ofNat 64 size ≠ 0 then
    raiseTrap (exception Exec.storeMisalign) startAddr
    return
  let vaErr ← vaddrWriteBufferMMUAPI startAddr size (src.setWidth (8 * size))
  if vaErr = .accessOk then
    return
  let feedback := vaErr.memException Exec.storeAccFault Exec.storeMisalign Exec.storePgfault
  assertThat (feedback ≠ Exec.ok) .memFeedback
  raiseTrap (exception feedback) startAddr

/-- `sfence_vma`. -/
def sfenceVma (vaddr asid : BitVec 64) : Emu β Bool := do
  let c ← getCore
  if c.currentPrivMode.level < PrivMode.sMode.level ||
      c.currentPrivMode == .sMode && c.status.getLsbD MStatus.tvm then
    return false
  sv39FlushTLBSfenceVma vaddr asid
  return true

/-- A jump: the trap for an odd target, else the link and the new PC. -/
def jumpTo (npc : BitVec 64) (link : Option (BitVec 5 × BitVec 64)) : Emu β ExecFlags := do
  if npc % 2 ≠ 0 then
    raiseTrap (exception Exec.instrMisalign) npc
    return retired
  match link with
  | some (rd, value) => setGPR rd value
  | none => pure ()
  modifyCore fun c => { c with currentProgramCounter := npc }
  return newPCSet

def execLui (inst : BitVec 32) : Emu β ExecFlags := do
  setGPR (RVInst.rd inst) (RVInst.uImm inst)
  return retired

def execAuipc (inst : BitVec 32) : Emu β ExecFlags := do
  let c ← getCore
  setGPR (RVInst.rd inst) (RVInst.uImm inst + c.currentProgramCounter)
  return retired

def execJal (inst : BitVec 32) : Emu β ExecFlags := do
  let c ← getCore
  jumpTo (c.currentProgramCounter + RVInst.jImm inst)
    (some (RVInst.rd inst, c.currentProgramCounter + 4))

/-- `imm12 & (~1)`; the target is not aligned when the base register is odd. -/
def execJalr (inst : BitVec 32) : Emu β ExecFlags := do
  let c ← getCore
  let base := c.gpr (RVInst.rs1 inst)
  let imm := RVInst.iImm12 inst
  let npc := base + (imm &&& ~~~ 1)
  let tmp := if imm &&& 1 ≠ 0 then imm ^^^ 1 else imm
  assertThat (npc = base + tmp) .jalrTarget
  jumpTo npc (some (RVInst.rd inst, c.currentProgramCounter + 4))

/-- The comparison of a branch; `none` for an unknown `funct3`. -/
def branchTaken (funct3 : BitVec 3) (a b : BitVec 64) : Option Bool :=
  match funct3 with
  | 0b000 => some (a == b)
  | 0b001 => some (a != b)
  | 0b100 => some (a.slt b)
  | 0b101 => some (!a.slt b)
  | 0b110 => some (a.ult b)
  | 0b111 => some (!a.ult b)
  | _ => none

/-- A misaligned target is found after `is_new_pc_set` has been set. -/
def execBranch (inst : BitVec 32) : Emu β ExecFlags := do
  let c ← getCore
  match branchTaken (RVInst.funct3 inst) (c.gpr (RVInst.rs1 inst)) (c.gpr (RVInst.rs2 inst)) with
  | none => return instrIllegal
  | some false => return retired
  | some true =>
    let npc := c.currentProgramCounter + RVInst.bImm inst
    if npc % 2 ≠ 0 then
      raiseTrap (exception Exec.instrMisalign) npc
    else
      modifyCore fun c => { c with currentProgramCounter := npc }
    return newPCSet

/-- A load of `size` bytes into `rd`, extended by `ext`. -/
def loadGPR (memAddr : BitVec 64) (size : Nat) (ext : BitVec (8 * size) → BitVec 64)
    (rd : BitVec 5) : Emu β ExecFlags := do
  match ← memRead memAddr size with
  | some buf => setGPR rd (ext buf)
  | none => pure ()
  return retired

def execLoad (inst : BitVec 32) : Emu β ExecFlags := do
  let c ← getCore
  let memAddr := c.gpr (RVInst.rs1 inst) + RVInst.iImm12 inst
  let rd := RVInst.rd inst
  match RVInst.funct3 inst with
  | 0b000 => loadGPR memAddr 1 (·.signExtend 64) rd
  | 0b001 => loadGPR memAddr 2 (·.signExtend 64) rd
  | 0b010 => loadGPR memAddr 4 (·.signExtend 64) rd
  | 0b011 => loadGPR memAddr 8 (·.signExtend 64) rd
  | 0b100 => loadGPR memAddr 1 (·.setWidth 64) rd
  | 0b101 => loadGPR memAddr 2 (·.setWidth 64) rd
  | 0b110 => loadGPR memAddr 4 (·.setWidth 64) rd
  | _ => return instrIllegal

def execStore (inst : BitVec 32) : Emu β ExecFlags := do
  let c ← getCore
  let memAddr := c.gpr (RVInst.rs1 inst) + RVInst.sImm inst
  let src := c.gpr (RVInst.rs2 inst)
  match RVInst.funct3 inst with
  | 0b000 => memWrite memAddr 1 src; return retired
  | 0b001 => memWrite memAddr 2 src; return retired
  | 0b010 => memWrite memAddr 4 src; return retired
  | 0b011 => memWrite memAddr 8 src; return retired
  | _ => return instrIllegal

/-- The operation and the operand of OP-IMM; `none` for an illegal instruction. -/
def decodeOpImm (inst : BitVec 32) : Option (ALUOp × BitVec 64) :=
  let imm := RVInst.iImm12 inst
  let fun6 := RVInst.funct7 inst >>> 1
  match RVInst.funct3 inst with
  | 0b000 => some (.add, imm)
  | 0b010 => some (.slt, imm)
  | 0b011 => some (.sltu, imm)
  | 0b100 => some (.xor, imm)
  | 0b110 => some (.or, imm)
  | 0b111 => some (.and, imm)
  | 0b001 => if BitVec.sle 64 imm then none else some (.sll, imm)
  | _ =>
    if fun6 ≠ 0b000000 ∧ fun6 ≠ 0b010000 then none
    else some (if fun6 = 0b010000 then .sra else .srl, imm &&& (1#64 <<< 6 - 1))

/-- The same for OP-IMM-32. -/
def decodeOpImm32 (inst : BitVec 32) : Option (ALUOp × BitVec 64) :=
  let imm := RVInst.iImm12 inst
  let fun7 := RVInst.funct7 inst
  match RVInst.funct3 inst with
  | 0b000 => some (.add, imm)
  | 0b001 => if BitVec.sle 64 imm ∨ fun7 ≠ 0b0000000 then none else some (.sll, imm)
  | 0b101 =>
    if fun7 ≠ 0b0000000 ∧ fun7 ≠ 0b0100000 then none
    else some (if fun7 = 0b0100000 then .sra else .srl, imm &&& (1#64 <<< 6 - 1))
  | _ => none

/-- The operation of OP. -/
def decodeOp (inst : BitVec 32) : Option ALUOp :=
  match RVInst.funct7 inst, RVInst.funct3 inst with
  | 0b0000000, 0b000 => some .add
  | 0b0000000, 0b001 => some .sll
  | 0b0000000, 0b010 => some .slt
  | 0b0000000, 0b011 => some .sltu
  | 0b0000000, 0b100 => some .xor
  | 0b0000000, 0b101 => some .srl
  | 0b0000000, 0b110 => some .or
  | 0b0000000, 0b111 => some .and
  | 0b0100000, 0b000 => some .sub
  | 0b0100000, 0b101 => some .sra
  | 0b0000001, 0b000 => some .mul
  | 0b0000001, 0b001 => some .mulh
  | 0b0000001, 0b010 => some .mulhsu
  | 0b0000001, 0b011 => some .mulhu
  | 0b0000001, 0b100 => some .div
  | 0b0000001, 0b101 => some .divu
  | 0b0000001, 0b110 => some .rem
  | 0b0000001, 0b111 => some .remu
  | _, _ => none

/-- The operation of OP-32. -/
def decodeOp32 (inst : BitVec 32) : Option ALUOp :=
  match RVInst.funct7 inst, RVInst.funct3 inst with
  | 0b0000000, 0b000 => some .add
  | 0b0000000, 0b001 => some .sll
  | 0b0000000, 0b101 => some .srl
  | 0b0100000, 0b000 => some .sub
  | 0b0100000, 0b101 => some .sra
  | 0b0000001, 0b000 => some .mul
  | 0b0000001, 0b100 => some .div
  | 0b0000001, 0b101 => some .divu
  | 0b0000001, 0b110 => some .rem
  | 0b0000001, 0b111 => some .remu
  | _, _ => none

/-- `setGPR(rd, alu_exec(a, b, op, op_32))`. -/
def aluGPR (rd : BitVec 5) (a b : BitVec 64) (op : ALUOp) (op32 : Bool) : Emu β ExecFlags := do
  let result ← aluExec a b op op32
  setGPR rd result
  return retired

/-- OP-IMM and OP-IMM-32, which differ in their decoders and in `op_32`. -/
def execImm (decoded : Option (ALUOp × BitVec 64)) (op32 : Bool) (inst : BitVec 32) :
    Emu β ExecFlags := do
  match decoded with
  | none => return instrIllegal
  | some (op, imm) =>
    let c ← getCore
    aluGPR (RVInst.rd inst) (c.gpr (RVInst.rs1 inst)) imm op op32

/-- OP and OP-32, in the same way. -/
def execReg (decoded : Option ALUOp) (op32 : Bool) (inst : BitVec 32) : Emu β ExecFlags := do
  match decoded with
  | none => return instrIllegal
  | some op =>
    let c ← getCore
    aluGPR (RVInst.rd inst) (c.gpr (RVInst.rs1 inst)) (c.gpr (RVInst.rs2 inst)) op op32

def execOpImm (inst : BitVec 32) : Emu β ExecFlags := execImm (decodeOpImm inst) false inst
def execOpImm32 (inst : BitVec 32) : Emu β ExecFlags := execImm (decodeOpImm32 inst) true inst
def execOp (inst : BitVec 32) : Emu β ExecFlags := execReg (decodeOp inst) false inst
def execOp32 (inst : BitVec 32) : Emu β ExecFlags := execReg (decodeOp32 inst) true inst

/-- The end of an atomic instruction: the result on `exec_ok`, else the trap. -/
def amoEnd (exc : BitVec 63) (addr : BitVec 64) (rd : BitVec 5) (result : BitVec 64) :
    Emu β ExecFlags := do
  if exc = Exec.ok then
    setGPR rd result
  else
    raiseTrap (exception exc) addr
  return retired

def execAmo (inst : BitVec 32) : Emu β ExecFlags := do
  let funct3 := RVInst.funct3 inst
  if funct3 ≠ 0b010 ∧ funct3 ≠ 0b011 then
    return instrIllegal
  let size := 1 <<< funct3.toNat
  let rd := RVInst.rd inst
  let c ← getCore
  let addr := c.gpr (RVInst.rs1 inst)
  let src := c.gpr (RVInst.rs2 inst)
  match AMOFunct.ofBits ((RVInst.funct7 inst >>> 2).setWidth 5) with
  | none => return instrIllegal
  | some .lr =>
    if RVInst.rs2 inst ≠ 0 then
      return instrIllegal
    let (exc, result) ← vaddrLoadReserved addr size
    amoEnd exc addr rd (result.signExtend 64)
  | some .sc =>
    let (exc, scFail) ← vaddrStoreConditional addr size (src.setWidth (8 * size))
    amoEnd exc addr rd (if scFail then 1 else 0)
  | some op =>
    let (exc, result) ← vaddrAtomicMemOperation addr size op src
    amoEnd exc addr rd result

/-- `FUNCT3_PRIV`. -/
def execPriv (inst : BitVec 32) : Emu β ExecFlags := do
  let rs2 := RVInst.rs2 inst
  let noRegs := RVInst.rs1 inst = 0 ∧ RVInst.rd inst = 0
  match RVInst.funct7 inst with
  | 0b0000000 =>
    if noRegs then
      match rs2 with
      | 0 => ecall; return retired
      | 1 => ebreak; return retired
      | _ => return instrIllegal
    else return instrIllegal
  | 0b0001000 =>
    if noRegs then
      match rs2 with
      | 0b00010 => return { isInstrIllegal := !(← sret) }
      | 0b00101 => return retired
      | _ => return instrIllegal
    else return retired
  | 0b0011000 =>
    if rs2 = 0b00010 ∧ noRegs then
      return { isInstrIllegal := !(← mret) }
    else return instrIllegal
  | 0b0001001 =>
    let c ← getCore
    let done ← sfenceVma (c.gpr (RVInst.rs1 inst)) (c.gpr rs2 &&& 0xffff)
    return { isInstrIllegal := !done }
  | _ => return instrIllegal

/-- The common form of the six CSR instructions: check, read, write what `newValue`
makes of the old value unless it is `none`, and hand the old value to `rd`. -/
def csrInstr (inst : BitVec 32) (write : Bool) (newValue : BitVec 64 → Option (BitVec 64)) :
    Emu β ExecFlags := do
  let csrIndex := field inst 20 12
  let rd := RVInst.rd inst
  let c ← getCore
  if !c.csrOpPermissionCheck csrIndex write then
    return instrIllegal
  match c.csrRead (CSRAddr.ofNumber csrIndex) with
  | none => return instrIllegal
  | some csrResult =>
    match newValue csrResult with
    | none =>
      setGPR rd csrResult
      return retired
    | some data =>
      match c.csrWrite data (CSRAddr.ofNumber csrIndex) with
      | .error a => throw a
      | .ok none => return instrIllegal
      | .ok (some c') =>
        modifyCore fun _ => c'
        setGPR rd csrResult
        return retired

def execCsrrw (inst : BitVec 32) : Emu β ExecFlags := do
  let c ← getCore
  csrInstr inst true (fun _ => some (c.gpr (RVInst.rs1 inst)))

def execCsrrs (inst : BitVec 32) : Emu β ExecFlags := do
  let c ← getCore
  let rs1 := RVInst.rs1 inst
  csrInstr inst (rs1 != 0) (fun v => if rs1 ≠ 0 then some (v ||| c.gpr rs1) else none)

def execCsrrc (inst : BitVec 32) : Emu β ExecFlags := do
  let c ← getCore
  let rs1 := RVInst.rs1 inst
  csrInstr inst (rs1 != 0) (fun v => if rs1 ≠ 0 then some (v &&& ~~~ c.gpr rs1) else none)

def execCsrrwi (inst : BitVec 32) : Emu β ExecFlags :=
  csrInstr inst true (fun _ => some ((RVInst.rs1 inst).setWidth 64))

def execCsrrsi (inst : BitVec 32) : Emu β ExecFlags :=
  let rs1 := RVInst.rs1 inst
  csrInstr inst (rs1 != 0) (fun v => if rs1 ≠ 0 then some (v ||| rs1.setWidth 64) else none)

def execCsrrci (inst : BitVec 32) : Emu β ExecFlags :=
  let rs1 := RVInst.rs1 inst
  csrInstr inst (rs1 != 0) (fun v => if rs1 ≠ 0 then some (v &&& ~~~ rs1.setWidth 64) else none)

def execSystem (inst : BitVec 32) : Emu β ExecFlags :=
  match RVInst.funct3 inst with
  | 0b000 => execPriv inst
  | 0b001 => execCsrrw inst
  | 0b010 => execCsrrs inst
  | 0b011 => execCsrrc inst
  | 0b101 => execCsrrwi inst
  | 0b110 => execCsrrsi inst
  | 0b111 => execCsrrci inst
  | _ => return instrIllegal

/-- The `switch` over the major opcode. -/
def exec32 (inst : BitVec 32) : Emu β ExecFlags :=
  match OpCode.ofBits (RVInst.opcode inst) with
  | some .lui => execLui inst
  | some .auipc => execAuipc inst
  | some .jal => execJal inst
  | some .jalr => execJalr inst
  | some .branch => execBranch inst
  | some .load => execLoad inst
  | some .store => execStore inst
  | some .opImm => execOpImm inst
  | some .opImm32 => execOpImm32 inst
  | some .op => execOp inst
  | some .op32 => execOp32 inst
  | some .amo => execAmo inst
  | some .fence => return retired
  | some .system => execSystem inst
  | none => return instrIllegal

end NextEmu.Simple
