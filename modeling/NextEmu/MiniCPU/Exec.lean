import NextEmu.MiniCPU.Privilege
import NextEmu.Simple.Exec

/-!
# Execution of 32-bit instructions on the MiniCPU

The `switch` over the major opcode in `MiniCPU_ns::RV64Core::step`, with `memRead` and
`memWrite` of its `rv64_common.cpp`. What the cases take out of the instruction word is read as
in `rvcore_simple`; what they do with it goes to the current context.
-/

namespace NextEmu.MiniCPU

open NextEmu.Lib.BitField NextEmu.Sdk NextEmu.Simple

variable {β : Type} [SlaveAtomicIOI β]

/-- `memRead`; `none` where the source returns false. -/
def memRead (startAddr : BitVec 64) (size : Nat) : Emu β (Option (BitVec (8 * size))) := do
  if startAddr % BitVec.ofNat 64 size ≠ 0 then
    raiseTrap (exception Exec.loadMisalign) startAddr
    return none
  if startAddr = ctxIdReg then
    assertThat (size = 8) .ctxIdSize
    let c ← getCore
    return some (c.currentCtx.setWidth (8 * size))
  if startAddr = putcReg then
    assertThat (size = 4) .putcSize
    let c ← getCore
    return some (c.ch.setWidth (8 * size))
  let (vaErr, data) ← sharedCall (vaddrReadBufferMMUAPI startAddr size)
  if vaErr = .accessOk then
    return some data
  let feedback := vaErr.memException Exec.loadAccFault Exec.loadMisalign Exec.loadPgfault
  assertThat (feedback ≠ Exec.ok) (.shared .memFeedback)
  raiseTrap (exception feedback) startAddr
  return none

/-- The store to the context register. -/
def storeCtxId (value : BitVec 64) : Emu β Unit := fun s =>
  .ok () { s with
    core := { s.core with newCtx := value, switchCtx := true }
    ctxStores := value :: s.ctxStores }

/-- The store to the output register, with `putc_color`. -/
def putc (value : BitVec 32) : Emu β Unit := fun s =>
  .ok () { s with core := { s.core with ch := value }, console := value :: s.console }

/-- `memWrite` of the low bytes of a register. No caller uses its result. -/
def memWrite (startAddr : BitVec 64) (size : Nat) (src : BitVec 64) : Emu β Unit := do
  if startAddr % BitVec.ofNat 64 size ≠ 0 then
    raiseTrap (exception Exec.storeMisalign) startAddr
    return
  if startAddr = ctxIdReg then
    assertThat (size = 8) .ctxIdSize
    storeCtxId src
    return
  if startAddr = putcReg then
    assertThat (size = 4) .putcSize
    putc (src.setWidth 32)
    return
  let vaErr ← sharedCall (vaddrWriteBufferMMUAPI startAddr size (src.setWidth (8 * size)))
  if vaErr = .accessOk then
    return
  let feedback := vaErr.memException Exec.storeAccFault Exec.storeMisalign Exec.storePgfault
  assertThat (feedback ≠ Exec.ok) (.shared .memFeedback)
  raiseTrap (exception feedback) startAddr

/-- A jump: the trap for an odd target, else the link and the new PC. -/
def jumpTo (npc : BitVec 64) (link : Option (BitVec 5 × BitVec 64)) : Emu β ExecFlags := do
  if npc % 2 ≠ 0 then
    raiseTrap (exception Exec.instrMisalign) npc
    return retired
  match link with
  | some (rd, value) => setGPR rd value
  | none => pure ()
  setPC npc
  return newPCSet

def execLui (inst : BitVec 32) : Emu β ExecFlags := do
  setGPR (RVInst.rd inst) (RVInst.uImm inst)
  return retired

def execAuipc (inst : BitVec 32) : Emu β ExecFlags := do
  let x ← getCtx
  setGPR (RVInst.rd inst) (RVInst.uImm inst + x.currentProgramCounter)
  return retired

def execJal (inst : BitVec 32) : Emu β ExecFlags := do
  let x ← getCtx
  jumpTo (x.currentProgramCounter + RVInst.jImm inst)
    (some (RVInst.rd inst, x.currentProgramCounter + 4))

def execJalr (inst : BitVec 32) : Emu β ExecFlags := do
  let x ← getCtx
  let base := x.gpr (RVInst.rs1 inst)
  let imm := RVInst.iImm12 inst
  let npc := base + (imm &&& ~~~ 1)
  let tmp := if imm &&& 1 ≠ 0 then imm ^^^ 1 else imm
  assertThat (npc = base + tmp) (.shared .jalrTarget)
  jumpTo npc (some (RVInst.rd inst, x.currentProgramCounter + 4))

def execBranch (inst : BitVec 32) : Emu β ExecFlags := do
  let x ← getCtx
  match branchTaken (RVInst.funct3 inst) (x.gpr (RVInst.rs1 inst)) (x.gpr (RVInst.rs2 inst)) with
  | none => return instrIllegal
  | some false => return retired
  | some true =>
    let npc := x.currentProgramCounter + RVInst.bImm inst
    if npc % 2 ≠ 0 then
      raiseTrap (exception Exec.instrMisalign) npc
    else
      setPC npc
    return newPCSet

/-- A load of `size` bytes into `rd`, extended by `ext`. -/
def loadGPR (memAddr : BitVec 64) (size : Nat) (ext : BitVec (8 * size) → BitVec 64)
    (rd : BitVec 5) : Emu β ExecFlags := do
  match ← memRead memAddr size with
  | some buf => setGPR rd (ext buf)
  | none => pure ()
  return retired

/-- LOAD, and LOAD_ASYNC, which repeats it. -/
def execLoad (inst : BitVec 32) : Emu β ExecFlags := do
  let x ← getCtx
  let memAddr := x.gpr (RVInst.rs1 inst) + RVInst.iImm12 inst
  let rd := RVInst.rd inst
  match RVInst.funct3 inst with
  | 0b000 => loadGPR memAddr 1 (·.signExtend 64) rd
  | 0b001 => loadGPR memAddr 2 (·.signExtend 64) rd
  | 0b010 => loadGPR memAddr 4 (·.signExtend 64) rd
  | 0b011 => loadGPR memAddr 8 (·.signExtend 64) rd
  | 0b100 => loadGPR memAddr 1 (·.setWidth 64) rd
  | 0b101 => loadGPR memAddr 2 (·.setWidth 64) rd
  | 0b110 => loadGPR memAddr 4 (·.setWidth 64) rd
  | _ => return instrIllegal

/-- STORE, and STORE_ASYNC, which repeats it. -/
def execStore (inst : BitVec 32) : Emu β ExecFlags := do
  let x ← getCtx
  let memAddr := x.gpr (RVInst.rs1 inst) + RVInst.sImm inst
  let src := x.gpr (RVInst.rs2 inst)
  match RVInst.funct3 inst with
  | 0b000 => memWrite memAddr 1 src; return retired
  | 0b001 => memWrite memAddr 2 src; return retired
  | 0b010 => memWrite memAddr 4 src; return retired
  | 0b011 => memWrite memAddr 8 src; return retired
  | _ => return instrIllegal

/-- `setGPR(rd, alu_exec(a, b, op, op_32))`. -/
def aluGPR (rd : BitVec 5) (a b : BitVec 64) (op : ALUOp) (op32 : Bool) : Emu β ExecFlags := do
  let result ← sharedCall (aluExec a b op op32)
  setGPR rd result
  return retired

def execImm (decoded : Option (ALUOp × BitVec 64)) (op32 : Bool) (inst : BitVec 32) :
    Emu β ExecFlags := do
  match decoded with
  | none => return instrIllegal
  | some (op, imm) =>
    let x ← getCtx
    aluGPR (RVInst.rd inst) (x.gpr (RVInst.rs1 inst)) imm op op32

def execReg (decoded : Option ALUOp) (op32 : Bool) (inst : BitVec 32) : Emu β ExecFlags := do
  match decoded with
  | none => return instrIllegal
  | some op =>
    let x ← getCtx
    aluGPR (RVInst.rd inst) (x.gpr (RVInst.rs1 inst)) (x.gpr (RVInst.rs2 inst)) op op32

def execOpImm (inst : BitVec 32) : Emu β ExecFlags := execImm (decodeOpImm inst) false inst
def execOpImm32 (inst : BitVec 32) : Emu β ExecFlags := execImm (decodeOpImm32 inst) true inst
def execOp (inst : BitVec 32) : Emu β ExecFlags := execReg (decodeOp inst) false inst
def execOp32 (inst : BitVec 32) : Emu β ExecFlags := execReg (decodeOp32 inst) true inst

/-- The end of an atomic instruction: the result on `exec_ok`, else the trap. -/
def amoEnd (exc : BitVec 63) (addr : BitVec 64) (rd : BitVec 5) (result : BitVec 64) :
    Emu β ExecFlags := do
  if exc = Exec.ok then
    setGPR rd result
  else
    raiseTrap (exception exc) addr
  return retired

/-- The AMOs go to the MMU at once, and so past the context register. -/
def execAmo (inst : BitVec 32) : Emu β ExecFlags := do
  let funct3 := RVInst.funct3 inst
  if funct3 ≠ 0b010 ∧ funct3 ≠ 0b011 then
    return instrIllegal
  let size := 1 <<< funct3.toNat
  let rd := RVInst.rd inst
  let x ← getCtx
  let addr := x.gpr (RVInst.rs1 inst)
  let src := x.gpr (RVInst.rs2 inst)
  match AMOFunct.ofBits ((RVInst.funct7 inst >>> 2).setWidth 5) with
  | none => return instrIllegal
  | some .lr =>
    if RVInst.rs2 inst ≠ 0 then
      return instrIllegal
    let (exc, result) ← sharedCall (vaddrLoadReserved addr size)
    amoEnd exc addr rd (result.signExtend 64)
  | some .sc =>
    let (exc, scFail) ← sharedCall (vaddrStoreConditional addr size (src.setWidth (8 * size)))
    amoEnd exc addr rd (if scFail then 1 else 0)
  | some op =>
    let (exc, result) ← sharedCall (vaddrAtomicMemOperation addr size op src)
    amoEnd exc addr rd result

/-- `FUNCT3_PRIV`. -/
def execPriv (inst : BitVec 32) : Emu β ExecFlags := do
  let rs2 := RVInst.rs2 inst
  let noRegs := RVInst.rs1 inst = 0 ∧ RVInst.rd inst = 0
  match RVInst.funct7 inst with
  | 0b0000000 =>
    if noRegs then
      match rs2 with
      | 0 => ecall; return retired
      | 1 => ebreak; return retired
      | _ => return instrIllegal
    else return instrIllegal
  | 0b0001000 =>
    if noRegs then
      match rs2 with
      | 0b00010 => return { isInstrIllegal := !(← sret) }
      | 0b00101 => return retired
      | _ => return instrIllegal
    else return retired
  | 0b0011000 =>
    if rs2 = 0b00010 ∧ noRegs then
      return { isInstrIllegal := !(← mret) }
    else return instrIllegal
  | 0b0001001 =>
    let x ← getCtx
    let done ← sfenceVma (x.gpr (RVInst.rs1 inst)) (x.gpr rs2 &&& 0xffff)
    return { isInstrIllegal := !done }
  | _ => return instrIllegal

/-- The common form of the six CSR instructions. -/
def csrInstr (inst : BitVec 32) (write : Bool) (newValue : BitVec 64 → Option (BitVec 64)) :
    Emu β ExecFlags := do
  let csrIndex := field inst 20 12
  let rd := RVInst.rd inst
  let c ← getCore
  if !c.csrOpPermissionCheck csrIndex write then
    return instrIllegal
  match c.csrRead (CSRAddr.ofNumber csrIndex) with
  | none => return instrIllegal
  | some csrResult =>
    match newValue csrResult with
    | none =>
      setGPR rd csrResult
      return retired
    | some data =>
      match c.csrWrite data (CSRAddr.ofNumber csrIndex) with
      | .error a => throw (.shared a)
      | .ok none => return instrIllegal
      | .ok (some c') =>
        modifyCore fun _ => c'
        setGPR rd csrResult
        return retired

def execCsrrw (inst : BitVec 32) : Emu β ExecFlags := do
  let x ← getCtx
  csrInstr inst true (fun _ => some (x.gpr (RVInst.rs1 inst)))

def execCsrrs (inst : BitVec 32) : Emu β ExecFlags := do
  let x ← getCtx
  let rs1 := RVInst.rs1 inst
  csrInstr inst (rs1 != 0) (fun v => if rs1 ≠ 0 then some (v ||| x.gpr rs1) else none)

def execCsrrc (inst : BitVec 32) : Emu β ExecFlags := do
  let x ← getCtx
  let rs1 := RVInst.rs1 inst
  csrInstr inst (rs1 != 0) (fun v => if rs1 ≠ 0 then some (v &&& ~~~ x.gpr rs1) else none)

def execCsrrwi (inst : BitVec 32) : Emu β ExecFlags :=
  csrInstr inst true (fun _ => some ((RVInst.rs1 inst).setWidth 64))

def execCsrrsi (inst : BitVec 32) : Emu β ExecFlags :=
  let rs1 := RVInst.rs1 inst
  csrInstr inst (rs1 != 0) (fun v => if rs1 ≠ 0 then some (v ||| rs1.setWidth 64) else none)

def execCsrrci (inst : BitVec 32) : Emu β ExecFlags :=
  let rs1 := RVInst.rs1 inst
  csrInstr inst (rs1 != 0) (fun v => if rs1 ≠ 0 then some (v &&& ~~~ rs1.setWidth 64) else none)

def execSystem (inst : BitVec 32) : Emu β ExecFlags :=
  match RVInst.funct3 inst with
  | 0b000 => execPriv inst
  | 0b001 => execCsrrw inst
  | 0b010 => execCsrrs inst
  | 0b011 => execCsrrc inst
  | 0b101 => execCsrrwi inst
  | 0b110 => execCsrrsi inst
  | 0b111 => execCsrrci inst
  | _ => return instrIllegal

/-- The major opcodes of the header: those of `rvcore_simple` and two of its own. -/
inductive OpCode
  | base (code : Simple.OpCode)
  | loadAsync
  | storeAsync
  deriving DecidableEq

def OpCode.ofBits (bits : BitVec 7) : Option OpCode :=
  if bits = 0b0001011 then some .loadAsync
  else if bits = 0b0101011 then some .storeAsync
  else (Simple.OpCode.ofBits bits).map .base

/-- The `switch` over the major opcode. -/
def exec32 (inst : BitVec 32) : Emu β ExecFlags :=
  match OpCode.ofBits (RVInst.opcode inst) with
  | some .loadAsync => execLoad inst
  | some .storeAsync => execStore inst
  | some (.base .lui) => execLui inst
  | some (.base .auipc) => execAuipc inst
  | some (.base .jal) => execJal inst
  | some (.base .jalr) => execJalr inst
  | some (.base .branch) => execBranch inst
  | some (.base .load) => execLoad inst
  | some (.base .store) => execStore inst
  | some (.base .opImm) => execOpImm inst
  | some (.base .opImm32) => execOpImm32 inst
  | some (.base .op) => execOp inst
  | some (.base .op32) => execOp32 inst
  | some (.base .amo) => execAmo inst
  | some (.base .fence) => return retired
  | some (.base .system) => execSystem inst
  | none => return instrIllegal

end NextEmu.MiniCPU
