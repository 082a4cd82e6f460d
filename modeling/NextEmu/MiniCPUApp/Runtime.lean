import Mathlib.Algebra.Order.Ring.Int
import NextEmu.Device.DmaPending

/-!
# The runtime of the MiniCPU applications

`misc/minicpu_app/main.c`. The routines reach the registers of the memory controller through
`REG_PTR`, whose structure lies as that of the device does. The controller here is the one that
the runtime counts on: a store to a pending register starts each channel that it newly sets once,
and the completion of a transfer clears the bit of its channel. Its queue holds the transfers that
have been started and not completed. `store_of_startsNew` says when the device does the same.
-/

namespace NextEmu.MiniCPUApp

open NextEmu.Device DmaPending MiniCPUMemController

/-! ## The controller -/

/-- A store of `v` to the pending register of `dir`. -/
def setPending (c : MiniCPUMemController) (dir : EventType) (v : BitVec 64) :
    MiniCPUMemController :=
  let chnToStart := v &&& ~~~ pending c dir
  let events := ((List.range nrChn).filter (chnToStart.getLsbD ·)).map (c.chnEvent dir (descs dir))
  { c.setWord (pendingOff dir) (pending c dir ||| v) with eventQueue := c.eventQueue ++ events }

/-- The transfer at `i` in the queue completes, if there is one. -/
def complete (c : MiniCPUMemController) (i : Nat) : MiniCPUMemController :=
  match c.eventQueue[i]? with
  | none => c
  | some event =>
    { c.setWord (pendingOff event.type) (pending c event.type &&& clearMask event) with
      eventQueue := c.eventQueue.eraseIdx i }

/-- Stores to the two words of a descriptor. -/
def setDesc (c : MiniCPUMemController) (dir : EventType) (chn : Nat) (srcAddr dstAddr : BitVec 64) :
    MiniCPUMemController :=
  (c.setWord (descs dir + 16 * chn) srcAddr).setWord (descs dir + 16 * chn + 8) dstAddr

/-! ## The routines -/

/-- The last two steps of both: the source and the destination of a channel, and then its
bit. -/
def setUp (c : MiniCPUMemController) (dir : EventType) (chn : Nat) (srcAddr dstAddr : BitVec 64) :
    MiniCPUMemController :=
  let c := setDesc c dir chn srcAddr dstAddr
  setPending c dir (pending c dir ||| 1#64 <<< chn)

/-- `NR_CTX`. -/
def nrCtx : Nat := 4

/-- `SCHEDULER_CTX_ID`. -/
def schedulerCtxID : BitVec 64 := 0

structure Runtime where
  ctrl : MiniCPUMemController
  /-- `ctx_rd_waiting` and `ctx_wr_waiting`. -/
  ctxWaiting : EventType → Nat → BitVec 64
  currCtxID : BitVec 64
  /-- `chk_ctx` of the scheduler. -/
  chkCtx : Nat

namespace Runtime

/-- What `init` leaves: the waiting masks are in .bss. No channel is pending yet. -/
def start (reg : Nat → BitVec 8) : Runtime where
  ctrl := (MiniCPUMemController.mk reg []
    |>.setWord (pendingOff .asyncRead) 0).setWord (pendingOff .asyncWrite) 0
  ctxWaiting := fun _ _ => 0
  currCtxID := schedulerCtxID
  chkCtx := 1

def switch2ctx (s : Runtime) (ctxID : BitVec 64) : Runtime := { s with currCtxID := ctxID }

def yield (s : Runtime) : Runtime := s.switch2ctx schedulerCtxID

/-- `append_curr_ctx_rd_waiting_chn` and `append_curr_ctx_wr_waiting_chn`. -/
def appendCurrCtxWaitingChn (s : Runtime) (dir : EventType) (chnID : Nat) : Runtime :=
  let currCtx := s.currCtxID.toNat % nrCtx
  { s with ctxWaiting := Function.update s.ctxWaiting dir <|
      Function.update (s.ctxWaiting dir) currCtx (s.ctxWaiting dir currCtx ||| 1#64 <<< chnID) }

/-- The first channel whose bit is clear in a pending register. -/
def freeChn (pendingChnBits : BitVec 64) : Option Nat :=
  (List.range nrChn).find? fun freeChn => 1#64 <<< freeChn &&& pendingChnBits = 0

/-- The text of both routines: the pending register of `tested` is searched, and a channel of
`programmed` is set up and started. -/
def asyncDword (tested programmed : EventType) (s : Runtime) (srcAddr dstAddr : BitVec 64) :
    Int × Runtime :=
  match freeChn (pending s.ctrl tested) with
  | none => (-1, s)
  | some chn =>
    let s := s.appendCurrCtxWaitingChn programmed chn
    (chn, { s with ctrl := setUp s.ctrl programmed chn srcAddr dstAddr })

/-- `async_rd_dword`. -/
def asyncRdDword : Runtime → BitVec 64 → BitVec 64 → Int × Runtime :=
  asyncDword .asyncRead .asyncRead

/-- `async_wr_dword`. All that it does after the search it does to the read side. -/
def asyncWrDword : Runtime → BitVec 64 → BitVec 64 → Int × Runtime :=
  asyncDword .asyncWrite .asyncRead

/-- Nothing that the context waits for is pending. -/
def mayRun (s : Runtime) (ctx : Nat) : Bool :=
  s.ctxWaiting .asyncRead ctx &&& pending s.ctrl .asyncRead = 0 &&
    s.ctxWaiting .asyncWrite ctx &&& pending s.ctrl .asyncWrite = 0

/-- A turn of the loop in `init`. -/
def schedule (s : Runtime) : Runtime :=
  let next := if s.chkCtx + 1 = nrCtx then 1 else s.chkCtx + 1
  let s' := if s.mayRun s.chkCtx then s.switch2ctx (BitVec.ofNat 64 s.chkCtx) else s
  { s' with chkCtx := next }

end Runtime

/-! ## Runs -/

/-- What happens next: a call of the context that runs, a completion, a switch of the context, or
a turn of the scheduler. -/
inductive RuntimeOp
  | asyncRdDword (srcAddr dstAddr : BitVec 64)
  | asyncWrDword (srcAddr dstAddr : BitVec 64)
  | complete (i : Nat)
  | yield
  | schedule
  deriving DecidableEq

namespace Runtime

def apply (s : Runtime) : RuntimeOp → Runtime
  | .asyncRdDword srcAddr dstAddr => (s.asyncRdDword srcAddr dstAddr).2
  | .asyncWrDword srcAddr dstAddr => (s.asyncWrDword srcAddr dstAddr).2
  | .complete i => { s with ctrl := MiniCPUApp.complete s.ctrl i }
  | .yield => s.yield
  -- the loop is in the scheduler's context and stands still in the others
  | .schedule => if s.currCtxID = schedulerCtxID then s.schedule else s

def run (s : Runtime) (ops : List RuntimeOp) : Runtime := ops.foldl apply s

end Runtime

/-! ## The device -/

theorem pending_setPending (c : MiniCPUMemController) (dir : EventType) (v : BitVec 64) :
    pending (setPending c dir v) dir = pending c dir ||| v := word_setWord c _ _

theorem getLsbD_toStart (bits v : BitVec 64) (i : Nat) :
    (v &&& ~~~ bits).getLsbD i = true ↔
      i < 64 ∧ v.getLsbD i = true ∧ ¬ bits.getLsbD i = true := by
  simp [and_left_comm]

/-- On the device a store that starts just the new channels is the one above. -/
theorem store_of_startsNew {c : MiniCPUMemController} {dir : EventType} {v : BitVec 64}
    (h : StartsNew c dir v) :
    ∃ c', c.store (pendingAddr dir) 8 v = .ok (.success, c') ∧
      pending c' dir = pending (setPending c dir v) dir ∧
      c'.eventQueue.Perm (setPending c dir v).eventQueue := by
  rw [startsNew_iff] at h
  obtain ⟨c', hstore, -, hpending, hqueue⟩ := store_pending c dir v
  refine ⟨c', hstore, ?_, ?_⟩
  · rw [hpending, pending_setPending]
    refine BitVec.eq_of_getLsbD_eq fun i hi => ?_
    rw [BitVec.getLsbD_or]
    cases hp : (pending c dir).getLsbD i with
    | false => rw [Bool.false_or]
    | true => rw [(h i hi).1 hp, Bool.true_or]
  · rw [hqueue]
    refine List.Perm.append_left _ (List.Perm.map _ ?_)
    refine (List.perm_ext_iff_of_nodup (started_nodup dir v) (List.nodup_range.filter _)).mpr
      fun i => ?_
    rw [List.mem_filter, getLsbD_toStart, List.mem_range]
    constructor
    · intro hi
      have hlt := (started_lt hi).1
      have hlow : i < 64 := Nat.lt_trans hlt (by decide)
      exact ⟨hlt, hlow, ((h i hlow).2).mp hi⟩
    · rintro ⟨-, hlow, hbits⟩
      exact ((h i hlow).2).mpr hbits

end NextEmu.MiniCPUApp
