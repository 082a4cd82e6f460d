import Mathlib.Algebra.Order.Ring.Int
import Mathlib.Data.Nat.Log

/-!
# The UART receiver

`uartlite_rtl/rtl/UartRx.v`. A state is the value of each register; `clock` is a rising
edge of `IO_Clk_I` with the reset released, where every register takes its new value from
the old ones. The moment flags and the next state are wires. The codes of the four states
of the FSM are all that two bits can hold.
-/

namespace NextEmu.Device

namespace UartRx

/-- The parameters of the module. -/
structure Params where
  baurdRate : Nat := 9600
  clkFreq : Nat := 1000000
  payloadBits : Nat := 8

namespace Params

variable (p : Params)

/-- `clk_per_bit`. -/
def clkPerBit : Nat := p.clkFreq / p.baurdRate

def clkCounterBitWidth : Nat := Nat.clog 2 p.clkPerBit + 1
def bitCounterBitWidth : Nat := Nat.clog 2 p.payloadBits + 1

/-- `Param_ClkPerBit`, which is cut to the width of the counter. -/
def paramClkPerBit : BitVec p.clkCounterBitWidth := BitVec.ofNat _ p.clkPerBit

end Params

/-- `Param_StateIDLE` to `Param_StateStopBit`. -/
inductive FsmState
  | idle
  | startBit
  | dataBits
  | stopBit
  deriving DecidableEq, Repr

end UartRx

open UartRx

structure UartRx (p : Params) where
  fsmState : FsmState
  clkCounter : BitVec p.clkCounterBitWidth
  bitCounter : BitVec p.bitCounterBitWidth
  recvDataBit : BitVec 2
  rxDoneFlag : Bool
  recvData : BitVec p.payloadBits

namespace UartRx

variable {p : Params}

/-- The registers under `IO_Rst_I = 0`. -/
def reset : UartRx p where
  fsmState := .idle
  clkCounter := 0
  bitCounter := 0
  recvDataBit := 0
  rxDoneFlag := false
  recvData := 0

/-- `IO_RxDone_O`. -/
def rxDone (u : UartRx p) : Bool := u.rxDoneFlag

/-- `IO_RxData_O`. -/
def rxData (u : UartRx p) : BitVec p.payloadBits := u.recvData

/-- `reg_recv_data_bit[1]`, which the FSM looks at. -/
def recvBit (u : UartRx p) : Bool := u.recvDataBit.getLsbD 1

def startBitMidMoment (u : UartRx p) : Bool :=
  u.fsmState == .startBit && u.clkCounter.toNat == p.paramClkPerBit.toNat / 2

def dataBitMidMoment (u : UartRx p) : Bool :=
  u.fsmState == .dataBits && u.clkCounter.toNat == p.paramClkPerBit.toNat

def stopBitMidMoment (u : UartRx p) : Bool :=
  u.fsmState == .stopBit && u.clkCounter.toNat == p.paramClkPerBit.toNat

def nextClkCounter (u : UartRx p) : BitVec p.clkCounterBitWidth :=
  match u.fsmState with
  | .idle => 0
  | .startBit =>
    if u.clkCounter.toNat < p.paramClkPerBit.toNat / 2 then u.clkCounter + 1 else 0
  | .dataBits => if u.clkCounter.toNat < p.paramClkPerBit.toNat then u.clkCounter + 1 else 0
  | .stopBit => if u.clkCounter.toNat < p.paramClkPerBit.toNat then u.clkCounter + 1 else 0

def nextBitCounter (u : UartRx p) : BitVec p.bitCounterBitWidth :=
  match u.fsmState with
  | .idle => 0
  | .dataBits =>
    if u.dataBitMidMoment then
      if u.bitCounter.toNat < p.payloadBits then u.bitCounter + 1 else 0
    else u.bitCounter
  | _ => u.bitCounter

/-- The write of one bit. An index beyond the register writes nothing. -/
def writeBit {n : Nat} (x : BitVec n) (i : Nat) (b : Bool) : BitVec n :=
  (x &&& ~~~ (1#n <<< i)) ||| (if b then 1#n <<< i else 0)

/-- The index is `reg_bit_counter` without its top bit. -/
def nextRecvData (u : UartRx p) : BitVec p.payloadBits :=
  if u.dataBitMidMoment then
    writeBit u.recvData (u.bitCounter.toNat % 2 ^ (p.bitCounterBitWidth - 1)) u.recvBit
  else u.recvData

def nextFsmState (u : UartRx p) : FsmState :=
  match u.fsmState with
  | .idle => if u.recvBit = false then .startBit else .idle
  | .startBit =>
    if u.startBitMidMoment then
      if u.recvBit = false then .dataBits else .idle
    else .startBit
  | .dataBits => if u.bitCounter.toNat = p.payloadBits then .stopBit else .dataBits
  | .stopBit => if u.stopBitMidMoment then .idle else .stopBit

/-- A rising edge with `IO_Rx_I = rx`. -/
def clock (u : UartRx p) (rx : Bool) : UartRx p where
  fsmState := u.nextFsmState
  clkCounter := u.nextClkCounter
  bitCounter := u.nextBitCounter
  recvDataBit := u.recvDataBit.setWidth 1 ++ BitVec.ofBool rx
  rxDoneFlag := u.stopBitMidMoment
  recvData := u.nextRecvData

/-- The registers before edge `t` of a line after reset. -/
def after (line : Nat → Bool) : Nat → UartRx p
  | 0 => reset
  | t + 1 => (after line t).clock (line t)

/-- The data at the edges before `t` that `IO_RxDone_O` is 1 after. -/
def received (line : Nat → Bool) : Nat → List (BitVec p.payloadBits)
  | 0 => []
  | t + 1 =>
    let u : UartRx p := after line (t + 1)
    received line t ++ if u.rxDone then [u.rxData] else []

end UartRx

end NextEmu.Device
