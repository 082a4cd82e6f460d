import NextEmu.Lib.AbortState
import NextEmu.Sdk.Interface
import NextEmu.Simple.Structs

/-!
# The state of a core and its bus

`RV64Core.h`, `RV64SV39_MMU.h` and `misc/rv64_sv39_structs.h`. The MMU of the
source holds references to the mode, `satp`, the status word and the hart id of
its core; here both live in one `Machine`, with the bus behind them. `trace` is
not a field of the source: it lists what the machine has done, newest first, and
nothing reads it.
-/

namespace NextEmu.Simple

open NextEmu.Lib.AbortState NextEmu.Sdk

/-- The inputs of the interrupt controllers. -/
structure IntStatus where
  meip : Bool := false
  msip : Bool := false
  mtip : Bool := false
  seip : Bool := false
  deriving Inhabited

structure RV64Core where
  intStatus : IntStatus
  gpr : BitVec 5 → BitVec 64
  -- machine mode
  csrMCycleNum : BitVec 64
  csrMIntDelegation : BitVec 64
  csrMExceptionDelegation : BitVec 64
  csrMachineTrapVal : BitVec 64
  csrMachineCause : BitVec 64
  csrMExceptionPC : BitVec 64
  csrMTrapVecBaseAddr : BitVec 64
  csrMCounterEN : BitVec 64
  csrMachineISA : BitVec 64
  csrMscratch : BitVec 64
  -- supervisor mode
  csrSupervisorTrapVal : BitVec 64
  csrSupervisorCause : BitVec 64
  csrSExceptionPC : BitVec 64
  csrSTrapVecBaseAddr : BitVec 64
  csrSCounterEN : BitVec 64
  csrSscratch : BitVec 64
  -- shared
  minstret : BitVec 64
  status : BitVec 64
  rvHartID : BitVec 64
  satp : BitVec 64
  csrIntPending : BitVec 64
  csrIntEnable : BitVec 64
  trapProgramCounter : BitVec 64
  currentProgramCounter : BitVec 64
  -- inner states
  needTrap : Bool
  currentPrivMode : PrivMode
  nextPrivMode : PrivMode
  deriving Inhabited

/-- `setGPR`: a write to `x0` is dropped. -/
def RV64Core.setGPR (c : RV64Core) (rd : BitVec 5) (value : BitVec 64) : RV64Core :=
  if rd = 0 then c else { c with gpr := fun r => if r = rd then value else c.gpr r }

/-- `pagesize` of a TLB entry: 0, 1, 2 or 3. -/
inductive PageSize
  | invalid
  | page4K
  | page2M
  | page1G
  deriving DecidableEq, Repr

/-- `SV39_TLB_Entry_t`. -/
structure TLBEntry where
  ppa : BitVec 64 := 0
  vpa : BitVec 64 := 0
  asid : BitVec 16 := 0
  pagesize : PageSize := .invalid
  r : Bool := false
  w : Bool := false
  x : Bool := false
  u : Bool := false
  g : Bool := false
  a : Bool := false
  d : Bool := false
  deriving DecidableEq, Repr

/-- The TLB has entries. -/
instance tlb_nonempty : NeZero 32 := ⟨by decide⟩

/-- The own fields of `RV64SV39_MMU`. The index counts modulo the 32 entries. -/
structure MMU where
  tlb : Fin 32 → TLBEntry
  lastSwappedIndex : Fin 32

/-- One thing that a machine did, for the statements about what it may do. -/
inductive Event (β : Type)
  /-- An instruction word was fetched and is decoded next. -/
  | fetched (inst : BitVec 32)
  /-- `raiseTrap` was called. -/
  | trap (cause : Cause) (tval : BitVec 64)
  /-- `getTLBEntry` was called, in this state. -/
  | translate (vaddr : BitVec 64) (mmu : MMU) (satp : BitVec 64) (bus : β)
  /-- A page table entry was read for a walk. -/
  | pteLoad (paddr : Addr)
  /-- Bytes were read or written for an instruction. -/
  | load (paddr : Addr) (len : Nat)
  | store (paddr : Addr) (len : Nat)
  | reserve (paddr : Addr) (len : Nat)
  | check (paddr : Addr) (len : Nat)

structure Machine (β : Type) where
  core : RV64Core
  mmu : MMU
  bus : β
  trace : List (Event β)

/-- A machine with an empty TLB that has done nothing yet. -/
def Machine.start {β : Type} (core : RV64Core) (bus : β) : Machine β where
  core := core
  mmu := { tlb := fun _ => {}, lastSwappedIndex := 0 }
  bus := bus
  trace := []

/-- The assertions of the modelled code. -/
inductive Assertion
  /-- `assert(!this->needTrap)` of `raiseTrap`. -/
  | needTrapClear
  /-- `assert(cause.cause != exec_ok)` of `raiseTrap`. -/
  | causeNotOk
  /-- The trap vector itself cannot be fetched (`raiseTrap`). -/
  | trapVectorFetch
  /-- `assert(cause.cause)` after a failed fetch. -/
  | fetchFeedback
  /-- `assert(feedback != exec_ok)` of `memRead` and `memWrite`. -/
  | memFeedback
  /-- `assert(npc == ...)` of JALR. -/
  | jalrTarget
  /-- `default: assert(false)` of `alu_exec`. -/
  | aluOp
  /-- `assert(tvec->mode <= 1)` of `csrWrite`. -/
  | tvecMode
  /-- The reserved fields of `mstatus` at the end of `step`. -/
  | statusBlank
  /-- `assert(begin_addr % 2 == 0)` of the instruction fetch. -/
  | fetchAlign
  /-- `assert(size == 4 || size == 8)` of the AMOs. -/
  | amoSize
  /-- `default: assert(false)` of `pa_amo_op`. -/
  | amoOp
  /-- The address is canonical (`getTLBEntry`). -/
  | canonical
  /-- `assert(tlb_entry_ptr == nullptr)` of the lookup loop. -/
  | duplicateMatch
  /-- `assert(feedback == FB_SUCCESS)` of the walk. -/
  | pteLoadOk
  /-- The two ways to compute the next table agree. -/
  | tableAddr
  /-- The assertions of `writeTLB` on the entry. -/
  | tlbFields
  /-- `assert(page_size)` of the access paths. -/
  | pageSize
  deriving DecidableEq, Repr

/-- Code of the core: it may change the machine and may stop at an assertion. -/
abbrev Emu (β : Type) := EStateM Assertion (Machine β)

section Primitives

variable {β : Type}

def assertThat (p : Prop) [Decidable p] (a : Assertion) : Emu β Unit :=
  if p then pure () else throw a

def getCore : Emu β RV64Core := fun s => .ok s.core s

def modifyCore (f : RV64Core → RV64Core) : Emu β Unit := fun s => .ok () { s with core := f s.core }

def emit (e : Event β) : Emu β Unit := fun s => .ok () { s with trace := e :: s.trace }

def setGPR (rd : BitVec 5) (value : BitVec 64) : Emu β Unit := modifyCore (·.setGPR rd value)

variable [SlaveAtomicIOI β]

/-- `doLoad`, noted in the trace as `e`. -/
def doLoadAs (e : Event β) (beginAddr : Addr) (len : Nat) : Emu β (Feedback × BitVec (8 * len)) :=
  fun s =>
    let r := SlaveIOI.load s.bus beginAddr len
    .ok r.1 { s with bus := r.2, trace := e :: s.trace }

def doLoad (beginAddr : Addr) (len : Nat) : Emu β (Feedback × BitVec (8 * len)) :=
  doLoadAs (.load beginAddr len) beginAddr len

def doStore (beginAddr : Addr) (len : Nat) (data : BitVec (8 * len)) : Emu β Feedback := fun s =>
  let r := SlaveIOI.store s.bus beginAddr len data
  .ok r.1 { s with bus := r.2, trace := .store beginAddr len :: s.trace }

def doReserve (beginAddr : Addr) (len : Nat) : Emu β Unit := fun s =>
  .ok () { s with
    bus := SlaveAtomicIOI.reserve s.bus beginAddr len s.core.rvHartID
    trace := .reserve beginAddr len :: s.trace }

def doCheck (beginAddr : Addr) (len : Nat) : Emu β Bool := fun s =>
  let r := SlaveAtomicIOI.check s.bus beginAddr len s.core.rvHartID
  .ok r.1 { s with bus := r.2, trace := .check beginAddr len :: s.trace }

end Primitives

/-! What each of these does: as a run, and as a weakest precondition. -/

section Rules

variable {β : Type} {Q : Unit → Machine β → Prop} {E : Assertion → Machine β → Prop}
  {s : Machine β}

theorem getCore_run (s : Machine β) : getCore s = .ok s.core s := rfl

theorem modifyCore_run (f : RV64Core → RV64Core) (s : Machine β) :
    modifyCore f s = .ok () { s with core := f s.core } := rfl

theorem setGPR_run (rd : BitVec 5) (value : BitVec 64) (s : Machine β) :
    setGPR rd value s = .ok () { s with core := s.core.setGPR rd value } := rfl

theorem emit_run (e : Event β) (s : Machine β) :
    emit e s = .ok () { s with trace := e :: s.trace } := rfl

/-- An assertion that holds is no more than the code behind it. -/
theorem assert_bind {α : Type} {p : Prop} [Decidable p] {a : Assertion} {f : Unit → Emu β α}
    (h : p) : (assertThat p a >>= f) s = f () s := by
  simp only [assertThat, h, if_true]
  rfl

@[simp] theorem wp_get {Q : Machine β → Machine β → Prop} :
    wp (get : Emu β (Machine β)) Q E s ↔ Q s s := Iff.rfl

@[simp] theorem wp_getCore {Q : RV64Core → Machine β → Prop} :
    wp getCore Q E s ↔ Q s.core s := Iff.rfl

@[simp] theorem wp_modifyCore (f : RV64Core → RV64Core) :
    wp (modifyCore f) Q E s ↔ Q () { s with core := f s.core } := Iff.rfl

@[simp] theorem wp_emit (e : Event β) :
    wp (emit e) Q E s ↔ Q () { s with trace := e :: s.trace } := Iff.rfl

@[simp] theorem wp_assertThat (p : Prop) [Decidable p] (a : Assertion) :
    wp (assertThat p a) Q E s ↔ (p → Q () s) ∧ (¬ p → E a s) := by
  unfold assertThat
  rw [wp_ite]
  rfl

variable [SlaveAtomicIOI β]

theorem doLoadAs_run (e : Event β) (a : Addr) (len : Nat) (s : Machine β) :
    doLoadAs e a len s =
      .ok (SlaveIOI.load s.bus a len).1
        { s with bus := (SlaveIOI.load s.bus a len).2, trace := e :: s.trace } := rfl

@[simp] theorem wp_doStore {Q : Feedback → Machine β → Prop} (a : Addr) (len : Nat)
    (data : BitVec (8 * len)) :
    wp (doStore a len data) Q E s ↔
      Q (SlaveIOI.store s.bus a len data).1
        { s with
          bus := (SlaveIOI.store s.bus a len data).2
          trace := .store a len :: s.trace } := Iff.rfl

end Rules

end NextEmu.Simple
