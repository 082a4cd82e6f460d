import Mathlib.Algebra.Order.Ring.Int
import NextEmu.Sdk.AddrBus

/-!
# The UART of the guests

`uartlite/include/Uartlite.hpp`. The register structure is the bytes that a guest sees.
`tick`, `readInput`, `load` and `store` run in threads of their own and meet in the two
mutexes, so each is a walk through the points where another thread can come in between: before
a lock is taken, and between any two of the statements that touch the queues, the registers or
`waitACK`. What is handed to the stream, got from it and given to a guest is kept in the order in
which it happens; what is printed besides is left out.
-/

namespace NextEmu.Device

open NextEmu.Sdk

structure Uartlite where
  regs : Nat → BitVec 8
  devSize : BitVec 64
  tx : List (BitVec 8)
  rx : List (BitVec 8)
  waitACK : Bool
  /-- There is an interrupt controller. -/
  intc : Bool

namespace Uartlite

def CTRL_RST_TX : BitVec 32 := 0x01
def CTRL_RST_RX : BitVec 32 := 0x02
def RX_FIFO_VALID_DATA : BitVec 32 := 1 <<< 0
def TX_FIFO_EMPTY : BitVec 32 := 1 <<< 2

/-! The offsets of the fields of `UartliteReg_t`, and `sizeof(regs)`. -/

def rxFifo : Nat := 0
def txFifo : Nat := 4
def status : Nat := 8
def control : Nat := 12
def regSize : Nat := 16

/-- A field of `regs`. -/
def reg (u : Uartlite) (off : Nat) : BitVec 32 := readBytes u.regs off 4

def setReg (u : Uartlite) (off : Nat) (x : BitVec 32) : Uartlite :=
  { u with regs := writeBytes u.regs off 4 x }

/-- The constructor. -/
def init (devSize : BitVec 64) (intc : Bool) : Uartlite where
  regs := writeBytes (fun _ => 0) status 4 TX_FIFO_EMPTY
  devSize := devSize
  tx := []
  rx := []
  waitACK := false
  intc := intc

/-- The field at `off` is accessed: `begin_addr <= off && off <= begin_addr + len - 1`. -/
def accessed (beginAddr : Addr) (len off : Nat) : Bool :=
  beginAddr ≤ BitVec.ofNat 64 off && BitVec.ofNat 64 off ≤ beginAddr + BitVec.ofNat 64 len - 1

/-- `begin_addr + len > sizeof(regs)`. -/
def outside (beginAddr : Addr) (len : Nat) : Bool :=
  regSize < (beginAddr + BitVec.ofNat 64 len).toNat

/-- What a load does to the registers before it copies them. -/
def latch (u : Uartlite) : Uartlite :=
  match u.rx with
  | c :: _ => (u.setReg status (u.reg status ||| RX_FIFO_VALID_DATA)).setReg rxFifo (c.setWidth 32)
  | [] => u.setReg status (u.reg status &&& ~~~ RX_FIFO_VALID_DATA)

/-- The reset bits of a store to the control register. -/
def reset (u : Uartlite) : Uartlite :=
  let u := if u.reg control &&& CTRL_RST_TX ≠ 0 then { u with tx := [] } else u
  if u.reg control &&& CTRL_RST_RX ≠ 0 then { u with rx := [] } else u

/-- `hasIRQ`. -/
def hasIRQ (u : Uartlite) : Bool := !u.rx.isEmpty || u.waitACK

/-! ## The points of the calls -/

/-- Points of `load`. -/
inductive LoadAt
  | entered
  | locked
  | latched
  | copied
  | done
  deriving DecidableEq, Repr

/-- Points of `store`. -/
inductive StoreAt
  | entered
  | txLocked
  | locked
  | copied
  | pushed
  | done
  | txUnlocked
  deriving DecidableEq, Repr

/-- Points of `tick`; the first four are those of the question for an interrupt. -/
inductive TickAt
  | entered
  | asking
  | answered (irq : Bool)
  | asked (irq : Bool)
  | draining
  | locked
  | popped (c : BitVec 8)
  deriving DecidableEq, Repr

/-- Points of one turn of `readInput`. -/
inductive InputAt
  | got
  | locked
  | pushed
  deriving DecidableEq, Repr

/-- Where a thread is, with the arguments of its call; the address is taken modulo `devSize`. -/
inductive Point
  | idle
  | load (i : LoadAt) (beginAddr : Addr) (len : Nat)
  | store (i : StoreAt) (beginAddr : Addr) (len : Nat) (buffer : BitVec (8 * len))
  | tick (i : TickAt)
  | readInput (i : InputAt) (c : BitVec 8)

inductive Call
  | load (beginAddr : Addr) (len : Nat)
  | store (beginAddr : Addr) (len : Nat) (buffer : BitVec (8 * len))
  | tick
  | readInput (c : BitVec 8)

/-- The device with the threads `ι` that are in its calls. -/
structure World (ι : Type) where
  dev : Uartlite
  txMutex : Option ι
  rxMutex : Option ι
  point : ι → Point
  /-- What `setInt` has been called with. -/
  irqs : List Bool
  /-- The low bytes that stores have written to `tx_fifo`. -/
  stored : List (BitVec 8)
  /-- What the stream has been given. -/
  handed : List (BitVec 8)
  /-- What `readInput` has put into the queue. -/
  pushed : List (BitVec 8)
  /-- What loads of `rx_fifo` have returned while there was something to read. -/
  returned : List (BitVec 8)

variable {ι : Type}

/-- A new device, and no call of it. -/
def World.init (devSize : BitVec 64) (intc : Bool) : World ι where
  dev := Uartlite.init devSize intc
  txMutex := none
  rxMutex := none
  point _ := .idle
  irqs := []
  stored := []
  handed := []
  pushed := []
  returned := []

/-- Where a call begins. Without an interrupt controller `tick` asks for no interrupt. -/
def enter (u : Uartlite) : Call → Point
  | .load beginAddr len => .load .entered (beginAddr % u.devSize) len
  | .store beginAddr len buffer => .store .entered (beginAddr % u.devSize) len buffer
  | .tick => .tick (if u.intc then .entered else .draining)
  | .readInput c => .readInput .got c

namespace World

variable [DecidableEq ι]

/-- Thread `t` goes on at `p`. -/
def goto (w : World ι) (t : ι) (p : Point) : World ι :=
  { w with point := Function.update w.point t p }

/-- `t` takes a mutex; nothing happens while another thread has it. -/
def lockTx (w : World ι) (t : ι) (p : Point) : Option (World ι) :=
  if w.txMutex.isNone then some { w.goto t p with txMutex := some t } else none

def lockRx (w : World ι) (t : ι) (p : Point) : Option (World ι) :=
  if w.rxMutex.isNone then some { w.goto t p with rxMutex := some t } else none

/-- The `memcpy` of a load. Its buffer has the byte of `rx_fifo` first. -/
def copyOut (w : World ι) (beginAddr : Addr) (len : Nat) : World ι :=
  let buffer := readBytes w.dev.regs beginAddr.toNat len
  { w with
    dev := { w.dev with waitACK := false }
    returned := if accessed beginAddr len rxFifo && !w.dev.rx.isEmpty then
      w.returned ++ [buffer.setWidth 8] else w.returned }

/-- The `memcpy` of a store, with the byte of its buffer that is for `tx_fifo`. -/
def copyIn (w : World ι) (beginAddr : Addr) (len : Nat) (buffer : BitVec (8 * len)) : World ι :=
  { w with
    dev := { w.dev with regs := writeBytes w.dev.regs beginAddr.toNat len buffer }
    stored := if accessed beginAddr len txFifo then
      w.stored ++ [buffer.extractLsb' (8 * (txFifo - beginAddr.toNat)) 8] else w.stored }

/-- The next step of a thread. A store outside the registers stops at `assert(false)`. -/
def next (w : World ι) (t : ι) : Option (World ι) :=
  match w.point t with
  | .idle => none
  | .load .entered b len => w.lockRx t (.load .locked b len)
  | .load .locked b len =>
    if outside b len then some (w.goto t (.load .done b len))
    else some ({ w with dev := w.dev.latch }.goto t (.load .latched b len))
  | .load .latched b len => some ((w.copyOut b len).goto t (.load .copied b len))
  | .load .copied b len =>
    let rx := if accessed b len rxFifo then w.dev.rx.tail else w.dev.rx
    some ({ w with dev := { w.dev with rx := rx } }.goto t (.load .done b len))
  | .load .done _ _ => some { w.goto t .idle with rxMutex := none }
  | .store .entered b len x => w.lockTx t (.store .txLocked b len x)
  | .store .txLocked b len x => w.lockRx t (.store .locked b len x)
  | .store .locked b len x =>
    if outside b len then none else some ((w.copyIn b len x).goto t (.store .copied b len x))
  | .store .copied b len x =>
    let tx := if accessed b len txFifo then w.dev.tx ++ [(w.dev.reg txFifo).setWidth 8]
      else w.dev.tx
    some ({ w with dev := { w.dev with tx := tx } }.goto t (.store .pushed b len x))
  | .store .pushed b len x =>
    let dev := if accessed b len control then w.dev.reset else w.dev
    some ({ w with dev := dev }.goto t (.store .done b len x))
  | .store .done b len x => some { w.goto t (.store .txUnlocked b len x) with txMutex := none }
  | .store .txUnlocked _ _ _ => some { w.goto t .idle with rxMutex := none }
  | .tick .entered => w.lockTx t (.tick .asking)
  | .tick .asking => some (w.goto t (.tick (.answered w.dev.hasIRQ)))
  | .tick (.answered irq) => some { w.goto t (.tick (.asked irq)) with txMutex := none }
  | .tick (.asked irq) => some { w.goto t (.tick .draining) with irqs := w.irqs ++ [irq] }
  | .tick .draining => w.lockTx t (.tick .locked)
  | .tick .locked =>
    match w.dev.tx with
    | c :: tx =>
      let dev := { w.dev with tx := tx, waitACK := tx.isEmpty || w.dev.waitACK }
      some ({ w with dev := dev }.goto t (.tick (.popped c)))
    | [] => some { w.goto t .idle with txMutex := none }
  | .tick (.popped c) => some { w.goto t (.tick .locked) with handed := w.handed ++ [c] }
  | .readInput .got c => w.lockRx t (.readInput .locked c)
  | .readInput .locked c =>
    some { w.goto t (.readInput .pushed c) with
      dev := { w.dev with rx := w.dev.rx ++ [c] }, pushed := w.pushed ++ [c] }
  | .readInput .pushed _ => some { w.goto t .idle with rxMutex := none }

/-- A thread that is in no call begins one, or one that is goes on. -/
inductive Action (ι : Type)
  | call (t : ι) (c : Call)
  | next (t : ι)

def act (w : World ι) : Action ι → Option (World ι)
  | .call t c =>
    match w.point t with
    | .idle => some (w.goto t (w.dev.enter c))
    | _ => none
  | .next t => w.next t

/-- An interleaving. -/
def run (w : World ι) (actions : List (Action ι)) : Option (World ι) := actions.foldlM act w

end World

end Uartlite

end NextEmu.Device
