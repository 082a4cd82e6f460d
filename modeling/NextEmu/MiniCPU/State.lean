import NextEmu.Simple.Amo

/-!
# The state of a MiniCPU core

`rvcore_minicpu/MiniCPUCore.h`: the registers of `rvcore_simple` with the integer registers
and the PC moved into four contexts. `rv64_sv39.cpp`, `rv64_amo.cpp`, `rv64_alu.cpp` and the
headers of structures are those of the other core word for word, and so are their models;
`sharedCall` runs them here. `trace` is the same list of events, `ctxStores` and `console` list
the words stored to the context register and the characters put out, newest first; nothing
reads these three.
-/

namespace NextEmu.MiniCPU

open NextEmu.Lib.AbortState NextEmu.Sdk NextEmu.Simple

/-- `NR_CTX`. -/
def nrCtx : Nat := 4

/-- `CTX_ID_REG_MMIO`. -/
def ctxIdReg : BitVec 64 := 0x66ccf8

/-- `PUTC_MMIO`. -/
def putcReg : BitVec 64 := 0x66cd00

/-- `MiniCPUCtx_t`. -/
structure MiniCPUCtx where
  gpr : BitVec 5 → BitVec 64
  currentProgramCounter : BitVec 64

structure RV64Core where
  intStatus : IntStatus
  ctx : Fin nrCtx → MiniCPUCtx
  currentCtx : BitVec 64
  newCtx : BitVec 64
  switchCtx : Bool
  -- machine mode
  csrMCycleNum : BitVec 64
  csrMIntDelegation : BitVec 64
  csrMExceptionDelegation : BitVec 64
  csrMachineTrapVal : BitVec 64
  csrMachineCause : BitVec 64
  csrMExceptionPC : BitVec 64
  csrMTrapVecBaseAddr : BitVec 64
  csrMCounterEN : BitVec 64
  csrMachineISA : BitVec 64
  csrMscratch : BitVec 64
  -- supervisor mode
  csrSupervisorTrapVal : BitVec 64
  csrSupervisorCause : BitVec 64
  csrSExceptionPC : BitVec 64
  csrSTrapVecBaseAddr : BitVec 64
  csrSCounterEN : BitVec 64
  csrSscratch : BitVec 64
  -- shared
  minstret : BitVec 64
  status : BitVec 64
  rvHartID : BitVec 64
  satp : BitVec 64
  csrIntPending : BitVec 64
  csrIntEnable : BitVec 64
  trapProgramCounter : BitVec 64
  -- inner states
  needTrap : Bool
  currentPrivMode : PrivMode
  nextPrivMode : PrivMode
  ch : BitVec 32

structure Machine (β : Type) where
  core : RV64Core
  mmu : MMU
  bus : β
  globalTick : BitVec 64
  trace : List (Event β)
  ctxStores : List (BitVec 64)
  console : List (BitVec 32)

/-- The assertions of the core, and an index that leaves `ctx`. -/
inductive Assertion
  /-- One that the other core has too. -/
  | shared (a : Simple.Assertion)
  /-- `assert(false)` at the head of `raiseTrap`. -/
  | trapRaised
  /-- `assert(size == 8)` of the context register. -/
  | ctxIdSize
  /-- `assert(size == 4)` of the output register. -/
  | putcSize
  /-- `ctx[currentCtx]` with an index that is too large. -/
  | ctxIndex
  deriving DecidableEq, Repr

abbrev Emu (β : Type) := EStateM Assertion (Machine β)

/-- The entry of `ctx` for `currentCtx`, as far as it is one. -/
def RV64Core.ctxIndex (c : RV64Core) : Fin nrCtx :=
  ⟨c.currentCtx.toNat % nrCtx, Nat.mod_lt _ (by decide)⟩

/-- `currentCtx` is the index of a context. -/
def RV64Core.InRange (c : RV64Core) : Prop := c.currentCtx.toNat < nrCtx

/-- The registers of `rvcore_simple` that a core shows in its current context. -/
def RV64Core.simple (c : RV64Core) : Simple.RV64Core where
  intStatus := c.intStatus
  gpr := (c.ctx c.ctxIndex).gpr
  csrMCycleNum := c.csrMCycleNum
  csrMIntDelegation := c.csrMIntDelegation
  csrMExceptionDelegation := c.csrMExceptionDelegation
  csrMachineTrapVal := c.csrMachineTrapVal
  csrMachineCause := c.csrMachineCause
  csrMExceptionPC := c.csrMExceptionPC
  csrMTrapVecBaseAddr := c.csrMTrapVecBaseAddr
  csrMCounterEN := c.csrMCounterEN
  csrMachineISA := c.csrMachineISA
  csrMscratch := c.csrMscratch
  csrSupervisorTrapVal := c.csrSupervisorTrapVal
  csrSupervisorCause := c.csrSupervisorCause
  csrSExceptionPC := c.csrSExceptionPC
  csrSTrapVecBaseAddr := c.csrSTrapVecBaseAddr
  csrSCounterEN := c.csrSCounterEN
  csrSscratch := c.csrSscratch
  minstret := c.minstret
  status := c.status
  rvHartID := c.rvHartID
  satp := c.satp
  csrIntPending := c.csrIntPending
  csrIntEnable := c.csrIntEnable
  trapProgramCounter := c.trapProgramCounter
  currentProgramCounter := (c.ctx c.ctxIndex).currentProgramCounter
  needTrap := c.needTrap
  currentPrivMode := c.currentPrivMode
  nextPrivMode := c.nextPrivMode

def Machine.simple {β : Type} (s : Machine β) : Simple.Machine β where
  core := s.core.simple
  mmu := s.mmu
  bus := s.bus
  trace := s.trace

section Primitives

variable {β α : Type}

def assertThat (p : Prop) [Decidable p] (a : Assertion) : Emu β Unit :=
  if p then pure () else throw a

def getCore : Emu β RV64Core := fun s => .ok s.core s

def modifyCore (f : RV64Core → RV64Core) : Emu β Unit := fun s => .ok () { s with core := f s.core }

def emit (e : Event β) : Emu β Unit := fun s => .ok () { s with trace := e :: s.trace }

/-- `ctx[currentCtx]`. -/
def getCtx : Emu β MiniCPUCtx := fun s =>
  if s.core.currentCtx.toNat < nrCtx then .ok (s.core.ctx s.core.ctxIndex) s
  else .error .ctxIndex s

/-- An assignment to `ctx[currentCtx]`. -/
def modifyCtx (f : MiniCPUCtx → MiniCPUCtx) : Emu β Unit := fun s =>
  if s.core.currentCtx.toNat < nrCtx then
    .ok () { s with core := { s.core with
      ctx := fun i => if i = s.core.ctxIndex then f (s.core.ctx i) else s.core.ctx i } }
  else .error .ctxIndex s

/-- `setGPR`: a write to `x0` is dropped before the context is looked at. -/
def setGPR (rd : BitVec 5) (value : BitVec 64) : Emu β Unit :=
  if rd = 0 then pure ()
  else modifyCtx fun x => { x with gpr := fun r => if r = rd then value else x.gpr r }

/-- An assignment to the PC. -/
def setPC (pc : BitVec 64) : Emu β Unit := modifyCtx fun x => { x with currentProgramCounter := pc }

/-- A call of the MMU or of `alu_exec`. Of the core it sees the mode, `satp`, the status word and
the hart id only. -/
def sharedCall (x : Simple.Emu β α) : Emu β α := fun s =>
  match x s.simple with
  | .ok a t => .ok a { s with mmu := t.mmu, bus := t.bus, trace := t.trace }
  | .error a t => .error (.shared a) { s with mmu := t.mmu, bus := t.bus, trace := t.trace }

end Primitives

end NextEmu.MiniCPU
