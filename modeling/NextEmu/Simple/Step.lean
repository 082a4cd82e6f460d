import NextEmu.Simple.Compressed

/-!
# One step of the core

`RV64Core::step` around its two decoders: interrupts, fetch, decoding, and the
common end at the labels `exception` and `post_exec`. A run is a sequence of steps
between which the interrupt inputs and the bus may change by themselves, since
the devices and other masters of the system act on them.
-/

namespace NextEmu.Simple

open NextEmu.Lib.BitField NextEmu.Sdk

/-- The local variables of `step` when it reaches `exception`. -/
structure StepLocals where
  inst : BitVec 32 := 0
  isCompressedInst : Bool := false
  flags : ExecFlags := {}

/-- `inst.r_type.opcode & 0b11` is not `0b11`. -/
def isCompressed (inst : BitVec 32) : Bool := RVInst.opcode inst &&& 0b11 != 0b11

variable {β : Type} [SlaveAtomicIOI β]

/-- The exception for a failed fetch; a misaligned one has none and fails an assertion. -/
def fetchException (fb : VAddrFeedback) : BitVec 63 :=
  match fb with
  | .pageFault => Exec.instrPgfault
  | .accessFault => Exec.instrAccFault
  | _ => 0

/-- Decoding and execution of a fetched word. -/
def decodeExec (inst : BitVec 32) : Emu β StepLocals := do
  emit (.fetched inst)
  if isCompressed inst then
    let flags ← execRvc inst
    return { inst := inst, isCompressedInst := true, flags := flags }
  else
    let flags ← exec32 inst
    return { inst := inst, isCompressedInst := false, flags := flags }

/-- From the fetch to the label `exception`. -/
def fetchDecodeExec : Emu β StepLocals := do
  let c ← getCore
  let pc := c.currentProgramCounter
  if pc % 2 ≠ 0 then
    raiseTrap (exception Exec.instrMisalign) pc
    return {}
  let (feedback, data) ← vaddrInstFetchMMUAPI pc 4
  if feedback ≠ .accessOk then
    let cause := fetchException feedback
    assertThat (cause ≠ 0) .fetchFeedback
    raiseTrap (exception cause) pc
    return {}
  decodeExec data

/-- The reserved fields of `mstatus` are zero. -/
def statusBlankZero (status : BitVec 64) : Bool :=
  !status.getLsbD MStatus.blank0 && !status.getLsbD MStatus.blank1 &&
    !status.getLsbD MStatus.blank2 && field status MStatus.blank3 9 == 0 &&
    field status MStatus.blank4 25 == 0

/-- The PC at the label `exception`. -/
def RV64Core.advancePC (c : RV64Core) (l : StepLocals) : RV64Core :=
  if c.needTrap then { c with currentProgramCounter := c.trapProgramCounter }
  else if l.flags.isNewPCSet then c
  else { c with
    currentProgramCounter := c.currentProgramCounter + (if l.isCompressedInst then 2 else 4) }

/-- The counter and the trap flag at the label `post_exec`. -/
def RV64Core.retire (c : RV64Core) : RV64Core :=
  { c with
    minstret := if c.needTrap then c.minstret else c.minstret + 1
    needTrap := false }

/-- From the label `exception` on. -/
def endStep (l : StepLocals) : Emu β Unit := do
  if l.flags.isInstrIllegal then
    raiseTrap (exception Exec.illegalInstr) (l.inst.setWidth 64)
  modifyCore (·.advancePC l)
  modifyCore (·.retire)
  let c ← getCore
  assertThat (statusBlankZero c.status = true) .statusBlank

/-- `RV64Core::step`. -/
def step : Emu β Unit := do
  preExec
  let c ← getCore
  if c.needTrap then
    endStep {}
  else
    let l ← fetchDecodeExec
    endStep l

/-- `reset`. The PC and the hart id stay; `misa` lists i, m, a, c, s and u. -/
def RV64Core.reset (c : RV64Core) : RV64Core :=
  { c with
    trapProgramCounter := 0
    needTrap := false
    currentPrivMode := .mMode
    nextPrivMode := .mMode
    status := setField (setField 0 MStatus.sxl (2#2)) MStatus.uxl (2#2)
    csrMachineISA := 2#2 ++ 0#36 ++
      (1#26 <<< 8 ||| 1#26 <<< 12 ||| 1#26 <<< 0 ||| 1#26 <<< 2 ||| 1#26 <<< 18 ||| 1#26 <<< 20)
    csrMExceptionDelegation := 0
    csrMIntDelegation := 0
    csrIntEnable := 0
    csrMTrapVecBaseAddr := 0
    csrMscratch := 0
    csrMExceptionPC := 0
    csrMachineCause := 0
    csrMachineTrapVal := 0
    csrMCounterEN := 0
    csrIntPending := 0
    csrMCycleNum := 0
    minstret := 0
    csrSTrapVecBaseAddr := 0
    csrSscratch := 0
    csrSExceptionPC := 0
    csrSupervisorCause := 0
    csrSupervisorTrapVal := 0
    satp := 0
    csrSCounterEN := 0
    gpr := fun _ => 0 }

/-- The state that the constructors leave: a reset core and an empty TLB. -/
structure Machine.Initial (s : Machine β) : Prop where
  core : ∃ c, s.core = RV64Core.reset c
  tlb : ∀ i, (s.mmu.tlb i).pagesize = .invalid
  index : s.mmu.lastSwappedIndex = 0

end NextEmu.Simple
