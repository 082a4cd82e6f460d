import NextEmu.Simple.State

/-!
# Privilege, traps and control registers

`rv64_privilege.cpp`, with the functions in the order of the source.
-/

namespace NextEmu.Simple

open NextEmu.Lib.BitField NextEmu.Sdk

/-! ## Traps

`raiseTrap` writes the trap registers of one mode; which mode is decided by the
delegation registers, except in M mode, where every trap stays. -/

/-- `trap_dest`: whether a trap goes to S mode. -/
def RV64Core.delegated (c : RV64Core) (cause : Cause) : Bool :=
  c.currentPrivMode != .mMode &&
    (if cause.interrupt then c.csrMIntDelegation &&& 1#64 <<< cause.cause.toNat != 0
      else c.csrMExceptionDelegation &&& 1#64 <<< cause.cause.toNat != 0)

/-- The handler address that a trap vector gives for a cause register. -/
def trapPC (tvec cause : BitVec 64) : BitVec 64 :=
  (TrapVector.base tvec).setWidth 64 <<< 2 +
    (if TrapVector.mode tvec = 1 then (cause.setWidth 63).setWidth 64 * 4 else 0)

/-- The mode that a mode leaves in the one-bit field `spp`. -/
def PrivMode.sppBit (p : PrivMode) : Bool := p.toBits.getLsbD 0

/-- The trap procedure for S mode. -/
def RV64Core.trapToS (c : RV64Core) (cause : Cause) (tval : BitVec 64) : RV64Core :=
  let spie := setBit c.status SStatus.spie (c.status.getLsbD SStatus.sie)
  let sie := setBit spie SStatus.sie false
  { c with
    csrSupervisorTrapVal := tval
    csrSupervisorCause := cause.val
    csrSExceptionPC := c.currentProgramCounter
    status := setBit sie SStatus.spp c.currentPrivMode.sppBit
    trapProgramCounter := trapPC c.csrSTrapVecBaseAddr cause.val
    nextPrivMode := .sMode }

/-- The trap procedure for M mode. -/
def RV64Core.trapToM (c : RV64Core) (cause : Cause) (tval : BitVec 64) : RV64Core :=
  let mpie := setBit c.status MStatus.mpie (c.status.getLsbD MStatus.mie)
  let mie := setBit mpie MStatus.mie false
  { c with
    csrMachineTrapVal := tval
    csrMachineCause := cause.val
    csrMExceptionPC := c.currentProgramCounter
    status := setField mie MStatus.mpp c.currentPrivMode.toBits
    trapProgramCounter := trapPC c.csrMTrapVecBaseAddr cause.val
    nextPrivMode := .mMode }

/-- The state change of `raiseTrap`. -/
def RV64Core.trapped (c : RV64Core) (cause : Cause) (tval : BitVec 64) : RV64Core :=
  let c := { c with needTrap := true }
  if c.delegated cause then c.trapToS cause tval else c.trapToM cause tval

variable {β : Type}

/-- `raiseTrap`. -/
def raiseTrap (cause : Cause) (tval : BitVec 64) : Emu β Unit := do
  emit (.trap cause tval)
  let c ← getCore
  assertThat (c.needTrap = false) .needTrapClear
  assertThat (cause.cause ≠ Exec.ok) .causeNotOk
  modifyCore (·.trapped cause tval)
  let c ← getCore
  assertThat (¬ (cause.cause = Exec.instrPgfault ∧ tval = c.trapProgramCounter)) .trapVectorFetch

/-! ## Interrupts -/

/-- The updates at the start of `preExec`: the cycle counter, the pending bits that
the interrupt controllers drive, and the mode. -/
def RV64Core.sampled (c : RV64Core) : RV64Core :=
  let meip := setBit c.csrIntPending 11 c.intStatus.meip
  let msip := setBit meip 3 c.intStatus.msip
  let mtip := setBit msip 7 c.intStatus.mtip
  { c with
    csrMCycleNum := c.csrMCycleNum + 1
    csrIntPending := setBit mtip 9 c.intStatus.seip
    needTrap := false
    currentPrivMode := c.nextPrivMode }

/-- `int_bits`: what is pending and enabled. -/
def RV64Core.intBits (c : RV64Core) : BitVec 64 := c.csrIntPending &&& c.csrIntEnable

/-- The interrupt that `preExec` raises, as the argument of `bits_to_int_type`. -/
def RV64Core.intToRaise (c : RV64Core) : Option (BitVec 64) :=
  let intBits := c.intBits
  if bitsToIntType intBits = none then none
  else if c.currentPrivMode = .mMode then
    let mModeIntBits := intBits &&& ~~~ c.csrMIntDelegation
    if c.status.getLsbD MStatus.mie && mModeIntBits != 0 then some mModeIntBits else none
  else if intBits &&& c.csrMIntDelegation != 0 then
    if c.currentPrivMode.level < PrivMode.sMode.level then some intBits
    else if c.status.getLsbD MStatus.sie then some intBits
    else none
  else if c.currentPrivMode.level < PrivMode.mMode.level then some intBits
  else if c.status.getLsbD MStatus.mie then some intBits
  else none

/-- `preExec`. -/
def preExec : Emu β Unit := do
  modifyCore (·.sampled)
  let c ← getCore
  match c.intToRaise with
  | none => return
  | some bits => raiseTrap (intCause (bitsToIntType bits)) 0

/-! ## Control registers -/

/-- `sstatus` as `csrRead` assembles it from the fields of `mstatus`. -/
def sstatusOf (status : BitVec 64) : BitVec 64 :=
  let v := setBit 0 SStatus.sie (status.getLsbD MStatus.sie)
  let v := setBit v SStatus.spie (status.getLsbD MStatus.spie)
  let v := setBit v SStatus.ube (status.getLsbD MStatus.ube)
  let v := setBit v SStatus.spp (status.getLsbD MStatus.spp)
  let v := setField v SStatus.vs (field status MStatus.vs 2)
  let v := setField v SStatus.fs (field status MStatus.fs 2)
  let v := setField v SStatus.xs (field status MStatus.xs 2)
  let v := setBit v SStatus.sum (status.getLsbD MStatus.sum)
  let v := setBit v SStatus.mxr (status.getLsbD MStatus.mxr)
  let v := setField v SStatus.uxl (field status MStatus.uxl 2)
  setBit v SStatus.sd (status.getLsbD MStatus.sd)

/-- `csrRead`; `none` where the source returns false. -/
def RV64Core.csrRead (c : RV64Core) : Option CSRAddr → Option (BitVec 64)
  | some .mvendorid => some 0
  | some .marchid => some 0
  | some .mimpid => some 0
  | some .mhartid => some c.rvHartID
  | some .mconfigptr => some 0
  | some .mstatus => some c.status
  | some .misa => some c.csrMachineISA
  | some .medeleg => some c.csrMExceptionDelegation
  | some .mideleg => some c.csrMIntDelegation
  | some .mie => some c.csrIntEnable
  | some .mtvec => some c.csrMTrapVecBaseAddr
  | some .mcounteren => some c.csrMCounterEN
  | some .mscratch => some c.csrMscratch
  | some .mepc => some c.csrMExceptionPC
  | some .mcause => some c.csrMachineCause
  | some .mtval => some c.csrMachineTrapVal
  | some .mip => some c.csrIntPending
  | some .mcycle => some c.csrMCycleNum
  | some .minstret => some c.minstret
  | some .sstatus => some (sstatusOf c.status)
  | some .sie => some (c.csrIntEnable &&& sModeIntMask)
  | some .stvec => some c.csrSTrapVecBaseAddr
  | some .scounteren => some c.csrSCounterEN
  | some .sscratch => some c.csrSscratch
  | some .sepc => some c.csrSExceptionPC
  | some .scause => some c.csrSupervisorCause
  | some .stval => some c.csrSupervisorTrapVal
  | some .sip => some (c.csrIntPending &&& sModeIntMask)
  | some .satp =>
    if c.currentPrivMode == .sMode && c.status.getLsbD MStatus.tvm then none else some c.satp
  | some .cycle =>
    if c.currentPrivMode.level ≤ PrivMode.sMode.level &&
      (!c.csrMCounterEN.getLsbD 0 || !c.csrSCounterEN.getLsbD 0) then none
    else some c.csrMCycleNum
  | some .tselect => some 1
  | some .tdata1 => some 0
  | some .time => some c.csrMCycleNum
  | none => none

/-- The fields of `mstatus` that a write to it takes over. -/
def writeMStatus (status data : BitVec 64) : BitVec 64 :=
  let v := setBit status MStatus.sie (data.getLsbD MStatus.sie)
  let v := setBit v MStatus.mie (data.getLsbD MStatus.mie)
  let v := setBit v MStatus.spie (data.getLsbD MStatus.spie)
  let v := setBit v MStatus.mpie (data.getLsbD MStatus.mpie)
  let v := setBit v MStatus.spp (data.getLsbD MStatus.spp)
  let v := setField v MStatus.mpp (field data MStatus.mpp 2)
  let v := setBit v MStatus.mprv (data.getLsbD MStatus.mprv)
  let v := setBit v MStatus.sum (data.getLsbD MStatus.sum)
  let v := setBit v MStatus.mxr (data.getLsbD MStatus.mxr)
  let v := setBit v MStatus.tvm (data.getLsbD MStatus.tvm)
  let v := setBit v MStatus.tw (data.getLsbD MStatus.tw)
  setBit v MStatus.tsr (data.getLsbD MStatus.tsr)

/-- The fields of the same register that a write to `sstatus` takes over. -/
def writeSStatus (status data : BitVec 64) : BitVec 64 :=
  let v := setBit status SStatus.sie (data.getLsbD SStatus.sie)
  let v := setBit v SStatus.spie (data.getLsbD SStatus.spie)
  let v := setBit v SStatus.spp (data.getLsbD SStatus.spp)
  let v := setBit v SStatus.sum (data.getLsbD SStatus.sum)
  setBit v SStatus.mxr (data.getLsbD SStatus.mxr)

/-- The value that `satp` takes for a written one: an unknown mode is replaced by 0. -/
def legalSatp (data : BitVec 64) : BitVec 64 :=
  if Satp.mode data ≠ 0 ∧ Satp.mode data ≠ 8 then setField data 60 (0#4) else data

/-- The value that `stvec` takes for a written one: a reserved mode is replaced by 0. -/
def legalTvec (data : BitVec 64) : BitVec 64 :=
  if 1 < TrapVector.mode data then setField data 0 (0#2) else data

/-- `csrWrite`; `none` where the source returns false. A reserved mode of `mtvec` fails
an assertion; the assertions on one-bit fields not being 2 cannot fail and are left out. -/
def RV64Core.csrWrite (c : RV64Core) (data : BitVec 64) :
    Option CSRAddr → Except Assertion (Option RV64Core)
  | some .mstatus => .ok (some { c with status := writeMStatus c.status data })
  | some .misa => .ok (some c)
  | some .medeleg => .ok (some { c with csrMExceptionDelegation := data &&& sModeExcMask })
  | some .mideleg => .ok (some { c with csrMIntDelegation := data &&& sModeIntMask })
  | some .mie => .ok (some { c with csrIntEnable := data &&& mModeIntMask })
  | some .mtvec =>
    if TrapVector.mode data ≤ 1 then .ok (some { c with csrMTrapVecBaseAddr := data })
    else .error .tvecMode
  | some .mcounteren => .ok (some { c with csrMCounterEN := data &&& counterMask })
  | some .mscratch => .ok (some { c with csrMscratch := data })
  | some .mepc => .ok (some { c with csrMExceptionPC := data })
  | some .mcause => .ok (some { c with csrMachineCause := data })
  | some .mtval => .ok (some { c with csrMachineTrapVal := data })
  | some .mip => .ok (some { c with csrIntPending := data &&& mModeIntMask })
  | some .mcycle => .ok (some { c with csrMCycleNum := data })
  | some .sstatus => .ok (some { c with status := writeSStatus c.status data })
  | some .sie =>
    .ok (some { c with
      csrIntEnable := (c.csrIntEnable &&& ~~~ sModeIntMask) ||| (data &&& sModeIntMask) })
  | some .stvec => .ok (some { c with csrSTrapVecBaseAddr := legalTvec data })
  | some .scounteren => .ok (some { c with csrSCounterEN := data &&& counterMask })
  | some .sscratch => .ok (some { c with csrSscratch := data })
  | some .sepc => .ok (some { c with csrSExceptionPC := data })
  | some .scause => .ok (some { c with csrSupervisorCause := data })
  | some .stval => .ok (some { c with csrSupervisorTrapVal := data })
  | some .sip =>
    .ok (some { c with
      csrIntPending := (c.csrIntPending &&& ~~~ sModeIntMask) ||| (data &&& sModeIntMask) })
  | some .satp =>
    if c.currentPrivMode == .sMode && c.status.getLsbD MStatus.tvm then .ok none
    else .ok (some { c with satp := legalSatp data })
  | some .tselect => .ok (some c)
  | some .tdata1 => .ok (some c)
  | some .time => .ok (some c)
  | some .mvendorid => .ok none
  | some .marchid => .ok none
  | some .mimpid => .ok none
  | some .mhartid => .ok none
  | some .mconfigptr => .ok none
  | some .minstret => .ok none
  | some .cycle => .ok none
  | none => .ok none

/-- `csr_op_permission_check`, on the number of the CSR. -/
def RV64Core.csrOpPermissionCheck (c : RV64Core) (csrIndex : BitVec 12) (write : Bool) : Bool :=
  if (csrIndex >>> 8 &&& 3).toNat > c.currentPrivMode.level then false
  else if csrIndex >>> 10 &&& 3 == 3 && write then false
  else true

/-! ## Environment calls and returns -/

/-- `ecall`. -/
def ecall : Emu β Unit := do
  let c ← getCore
  raiseTrap (exception (BitVec.ofNat 63 (c.currentPrivMode.level + 8))) 0

/-- `ebreak`. -/
def ebreak : Emu β Unit := raiseTrap (exception Exec.breakpoint) 0

/-- The state change of `mret`. -/
def RV64Core.returnedM (c : RV64Core) : RV64Core :=
  let v := setBit c.status MStatus.mie (c.status.getLsbD MStatus.mpie)
  let v := setBit v MStatus.mpie true
  let v := if field v MStatus.mpp 2 ≠ PrivMode.mMode.toBits then setBit v MStatus.mprv false else v
  { c with
    status := setField v MStatus.mpp PrivMode.uMode.toBits
    nextPrivMode := PrivMode.ofBits (field c.status MStatus.mpp 2)
    needTrap := true
    trapProgramCounter := c.csrMExceptionPC }

/-- `mret`. -/
def mret : Emu β Bool := do
  let c ← getCore
  if c.currentPrivMode ≠ .mMode then
    return false
  modifyCore (·.returnedM)
  return true

/-- The mode that the one-bit field `spp` names. -/
def sppMode (spp : Bool) : PrivMode := if spp then .sMode else .uMode

/-- The state change of `sret`. A one-bit `spp` never equals `M_MODE`, so MPRV is cleared. -/
def RV64Core.returnedS (c : RV64Core) : RV64Core :=
  let v := setBit c.status SStatus.sie (c.status.getLsbD SStatus.spie)
  let v := setBit v SStatus.spie true
  let v := if sppMode (v.getLsbD SStatus.spp) ≠ .mMode then setBit v MStatus.mprv false else v
  { c with
    status := setBit v SStatus.spp PrivMode.uMode.sppBit
    nextPrivMode := sppMode (c.status.getLsbD SStatus.spp)
    needTrap := true
    trapProgramCounter := c.csrSExceptionPC }

/-- `sret`. -/
def sret : Emu β Bool := do
  let c ← getCore
  if c.currentPrivMode.level < PrivMode.sMode.level then
    return false
  if c.status.getLsbD MStatus.tsr then
    return false
  modifyCore (·.returnedS)
  return true

end NextEmu.Simple
