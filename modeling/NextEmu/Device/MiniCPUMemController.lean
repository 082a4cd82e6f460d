import NextEmu.Sdk.AddrBus

/-!
# The memory controller of the MiniCPU

`minicpu_controller/src/common.cpp` and `MiniCPUController.h`. The register structure is
the bytes that a guest sees, so that an access at any offset is one of bytes; what lies
behind them is outside the structure. The event thread and the pool are the queue and
the list of events that handlers are working on. A handler makes its bus accesses and
then clears a pending bit; both kinds clear one of `rd_pending_chn_bits`.
-/

namespace NextEmu.Device

open NextEmu.Sdk

/-- `EventType`. -/
inductive EventType
  | asyncRead
  | asyncWrite
  deriving DecidableEq, Repr

structure MemCtrlEvent where
  type : EventType
  chnID : BitVec 64
  srcAddr : BitVec 64
  dstAddr : BitVec 64
  deriving DecidableEq, Repr

/-- `NR_CHN`. -/
def nrChn : Nat := 16

/-! The offsets of the fields of `inner_state`. -/

namespace InnerState

def rdPendingChnBits : Nat := 0x10
def wrPendingChnBits : Nat := 0x18
def rdChnDescs : Nat := 0x100
def wrChnDescs : Nat := 0x200
def size : Nat := 0x300

end InnerState

structure MiniCPUMemController where
  reg : Nat → BitVec 8
  eventQueue : List MemCtrlEvent

namespace MiniCPUMemController

/-- Where a call breaks off: `assert(len == 8)`, or bytes outside `reg`. -/
inductive Fault
  | len
  | outside
  deriving DecidableEq, Repr

/-- An eight-byte field of `reg`. -/
def word (c : MiniCPUMemController) (off : Nat) : BitVec 64 := readBytes c.reg off 8

def setWord (c : MiniCPUMemController) (off : Nat) (x : BitVec 64) : MiniCPUMemController :=
  { c with reg := writeBytes c.reg off 8 x }

/-- `emitEvent`. -/
def emitEvent (c : MiniCPUMemController) (event : MemCtrlEvent) : MiniCPUMemController :=
  { c with eventQueue := c.eventQueue ++ [event] }

/-- The event of channel `i`, with what its descriptor holds now. -/
def chnEvent (c : MiniCPUMemController) (type : EventType) (descs i : Nat) : MemCtrlEvent where
  type := type
  chnID := BitVec.ofNat 64 i
  srcAddr := c.word (descs + 16 * i)
  dstAddr := c.word (descs + 16 * i + 8)

/-- The part of `store` under `regMutex`: the channels to start, and the pending bits. -/
def claimChannels (c : MiniCPUMemController) (pending : Nat) (valToStore : BitVec 64) :
    BitVec 64 × MiniCPUMemController :=
  let valToStore := valToStore &&& ~~~ c.word pending
  let chnToStart := valToStore ^^^ c.word pending
  (chnToStart, c.setWord pending (c.word pending ||| valToStore))

/-- The loop over the read channels. It breaks at the first that it starts. -/
def startRead (chnToStart : BitVec 64) : List Nat → MiniCPUMemController → MiniCPUMemController
  | [], c => c
  | i :: rest, c =>
    if chnToStart.getLsbD i then
      c.emitEvent (c.chnEvent .asyncRead InnerState.rdChnDescs i)
    else startRead chnToStart rest c

/-- The loop over the write channels. -/
def startWrite (chnToStart : BitVec 64) : List Nat → MiniCPUMemController → MiniCPUMemController
  | [], c => c
  | i :: rest, c =>
    if chnToStart.getLsbD i then
      startWrite chnToStart rest (c.emitEvent (c.chnEvent .asyncWrite InnerState.wrChnDescs i))
    else startWrite chnToStart rest c

/-- `load`. -/
def load (c : MiniCPUMemController) (beginAddr : Addr) (len : Nat) :
    Except Fault (Feedback × BitVec 64) := do
  if len ≠ 8 then throw .len
  if beginAddr.toNat + 8 > InnerState.size then throw .outside
  return (.success, c.word beginAddr.toNat)

/-- `store`. The register is written before anything looks at it. -/
def store (c : MiniCPUMemController) (beginAddr : Addr) (len : Nat) (data : BitVec (8 * len)) :
    Except Fault (Feedback × MiniCPUMemController) := do
  if len ≠ 8 then throw .len
  if beginAddr.toNat + 8 > InnerState.size then throw .outside
  let valToStore := data.setWidth 64
  let c := c.setWord beginAddr.toNat valToStore
  if beginAddr = 0x10 then
    let (chnToStart, c) := c.claimChannels InnerState.rdPendingChnBits valToStore
    return (.success, startRead chnToStart (List.range nrChn) c)
  if beginAddr = 0x18 then
    let (chnToStart, c) := c.claimChannels InnerState.wrPendingChnBits valToStore
    return (.success, startWrite chnToStart (List.range nrChn) c)
  return (.success, c)

/-- `mask` of the handlers. -/
def clearMask (event : MemCtrlEvent) : BitVec 64 := ~~~ (1#64 <<< event.chnID.toNat)

/-- The end of the `ASYNC_READ` handler. -/
def clearAfterRead (c : MiniCPUMemController) (event : MemCtrlEvent) : MiniCPUMemController :=
  c.setWord InnerState.rdPendingChnBits (c.word InnerState.rdPendingChnBits &&& clearMask event)

/-- The end of the `ASYNC_WRITE` handler. -/
def clearAfterWrite (c : MiniCPUMemController) (event : MemCtrlEvent) : MiniCPUMemController :=
  c.setWord InnerState.rdPendingChnBits (c.word InnerState.rdPendingChnBits &&& clearMask event)

/-- The end of a handler. -/
def clearPending (c : MiniCPUMemController) (event : MemCtrlEvent) : MiniCPUMemController :=
  match event.type with
  | .asyncRead => c.clearAfterRead event
  | .asyncWrite => c.clearAfterWrite event

end MiniCPUMemController

/-- The bus accesses of a handler, which are the same in both. The data is 0 when the load
fails, unless the device has written the buffer all the same; the store is made in any case. -/
def transfer {β : Type} [SlaveIOI β] (bus : β) (event : MemCtrlEvent) : β :=
  let r := SlaveIOI.load bus event.srcAddr 8
  (SlaveIOI.store r.2 event.dstAddr 8 r.1.2).2

end NextEmu.Device
