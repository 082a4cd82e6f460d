import NextEmu.MiniCPU.Compressed
import NextEmu.Simple.Step

/-!
# One step of the MiniCPU

`MiniCPU_ns::RV64Core::step` around its two decoders. A store to the context register takes
effect at the very end, behind the update of the PC. The inputs and the bus may change
between two steps.
-/

namespace NextEmu.MiniCPU

open NextEmu.Lib.BitField NextEmu.Sdk NextEmu.Simple

variable {β : Type} [SlaveAtomicIOI β]

/-- Decoding and execution of a fetched word. -/
def decodeExec (inst : BitVec 32) : Emu β StepLocals := do
  emit (.fetched inst)
  if isCompressed inst then
    let flags ← execRvc inst
    return { inst := inst, isCompressedInst := true, flags := flags }
  else
    let flags ← exec32 inst
    return { inst := inst, isCompressedInst := false, flags := flags }

/-- From the fetch to the label `exception`. -/
def fetchDecodeExec : Emu β StepLocals := do
  let x ← getCtx
  let pc := x.currentProgramCounter
  if pc % 2 ≠ 0 then
    raiseTrap (exception Exec.instrMisalign) pc
    return {}
  let (feedback, data) ← sharedCall (vaddrInstFetchMMUAPI pc 4)
  if feedback ≠ .accessOk then
    let cause := fetchException feedback
    assertThat (cause ≠ 0) (.shared .fetchFeedback)
    raiseTrap (exception cause) pc
    return {}
  decodeExec data

/-- The PC at the label `exception`. -/
def advancePC (l : StepLocals) : Emu β Unit := do
  let c ← getCore
  if c.needTrap then
    setPC c.trapProgramCounter
  else if !l.flags.isNewPCSet then
    let x ← getCtx
    setPC (x.currentProgramCounter + (if l.isCompressedInst then 2 else 4))

/-- The counter and the trap flag at the label `post_exec`. -/
def RV64Core.retire (c : RV64Core) : RV64Core :=
  { c with
    minstret := if c.needTrap then c.minstret else c.minstret + 1
    needTrap := false }

/-- The switch of contexts, if one was asked for. -/
def RV64Core.switched (c : RV64Core) : RV64Core :=
  if c.switchCtx then { c with switchCtx := false, currentCtx := c.newCtx } else c

/-- From the label `exception` on. -/
def endStep (l : StepLocals) : Emu β Unit := do
  if l.flags.isInstrIllegal then
    raiseTrap (exception Exec.illegalInstr) (l.inst.setWidth 64)
  advancePC l
  modifyCore (·.retire)
  let c ← getCore
  assertThat (statusBlankZero c.status = true) (.shared .statusBlank)
  modifyCore (·.switched)
  modify fun s => { s with globalTick := s.globalTick + 1 }

/-- `MiniCPU_ns::RV64Core::step`. -/
def step : Emu β Unit := do
  preExec
  let c ← getCore
  if c.needTrap then
    endStep {}
  else
    let l ← fetchDecodeExec
    endStep l

/-- `reset`. The PCs, the hart id and what selects the context stay. -/
def RV64Core.reset (c : RV64Core) : RV64Core :=
  { c with
    trapProgramCounter := 0
    needTrap := false
    currentPrivMode := .mMode
    nextPrivMode := .mMode
    status := setField (setField 0 MStatus.sxl (2#2)) MStatus.uxl (2#2)
    csrMachineISA := 2#2 ++ 0#36 ++
      (1#26 <<< 8 ||| 1#26 <<< 12 ||| 1#26 <<< 0 ||| 1#26 <<< 2 ||| 1#26 <<< 18 ||| 1#26 <<< 20)
    csrMExceptionDelegation := 0
    csrMIntDelegation := 0
    csrIntEnable := 0
    csrMTrapVecBaseAddr := 0
    csrMscratch := 0
    csrMExceptionPC := 0
    csrMachineCause := 0
    csrMachineTrapVal := 0
    csrMCounterEN := 0
    csrIntPending := 0
    csrMCycleNum := 0
    minstret := 0
    csrSTrapVecBaseAddr := 0
    csrSscratch := 0
    csrSExceptionPC := 0
    csrSupervisorCause := 0
    csrSupervisorTrapVal := 0
    satp := 0
    csrSCounterEN := 0
    ctx := fun i => { c.ctx i with gpr := fun _ => 0 } }

/-- The state that the constructors leave: context 0, no switch, a reset core and an empty TLB. -/
structure Machine.Initial (s : Machine β) : Prop where
  core : ∃ c, s.core = RV64Core.reset c
  currentCtx : s.core.currentCtx = 0
  newCtx : s.core.newCtx = 0
  switchCtx : s.core.switchCtx = false
  tlb : ∀ i, (s.mmu.tlb i).pagesize = .invalid
  index : s.mmu.lastSwappedIndex = 0
  ctxStores : s.ctxStores = []

/-- The machine with other inputs and another bus, as the devices leave them between two steps. -/
def Machine.withInputs (s : Machine β) (i : IntStatus) (b : β) : Machine β :=
  { s with core := { s.core with intStatus := i }, bus := b }

/-- A step, from whatever the inputs and the bus have become. -/
def Next (s t : Machine β) : Prop := ∃ i b, step (s.withInputs i b) = .ok () t

/-! ## The debugger

The functions of `rv64_common.cpp` and `rv64_debug.cpp` that look at a context. -/

/-- `DumpProgramCounter_DebugAPI`. -/
def dumpProgramCounter : Emu β (BitVec 64) := do
  let x ← getCtx
  return x.currentProgramCounter

/-- `WriteProgramCounter_DebugAPI`. -/
def writeProgramCounter (regVal : BitVec 64) : Emu β Unit := setPC regVal

/-- `setGPRByIndex`. -/
def setGPRByIndex (gprIndex : BitVec 5) (val : BitVec 64) : Emu β Unit := setGPR gprIndex val

/-- `DumpAllRegister_DebugAPI`: the integer registers and the PC. -/
def dumpAllRegister : Emu β (List (BitVec 64)) := do
  let x ← getCtx
  return (List.finRange 32).map (fun i => x.gpr (BitVec.ofFin i)) ++ [x.currentProgramCounter]

/-- `WriteAllRegister_DebugAPI`; false where it returns `MEMU_INVALID_PARAM`. -/
def writeAllRegister (regs : List (BitVec 64)) : Emu β Bool := do
  if regs.length ≠ 33 then
    return false
  modifyCtx fun _ => ⟨fun r => regs.getD r.toNat 0, regs.getD 32 0⟩
  return true

end NextEmu.MiniCPU
