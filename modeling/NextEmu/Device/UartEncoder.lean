import Mathlib.Algebra.Order.Ring.Int

/-!
# The UART encoder

`rtl_adapter/uart_encoder/include/UartEncoder.h`. The bytes at `data` are host memory
from the pointer on, so that a bit beyond the array is read like any other;
`currentState` is not initialised by the constructor and is an argument of it here. The
wire signal carries the level of `currentLogicVal` and is left out.
-/

namespace NextEmu.Device

structure UartEncoder where
  txData : Nat → BitVec 8
  txDataBytes : BitVec 64
  cycleCounter : BitVec 64
  bitCounter : BitVec 64
  txBitCounter : BitVec 64
  cyclesPerBit : BitVec 64
  cyclesToDelay : BitVec 64
  payloadBits : BitVec 64
  /-- `ueMutex` is locked. -/
  ueMutex : Bool
  currentLogicVal : Bool
  currentState : BitVec 8
  nextState : BitVec 8

namespace UartEncoder

def stateIdle : BitVec 8 := 0
def stateStartBit : BitVec 8 := 1
def stateDataBits : BitVec 8 := 2
def stateStopBit : BitVec 8 := 3

/-- Where a call does not return: at a mutex that is locked, or at a division by zero. -/
inductive Fault
  | blocked
  | divZero
  deriving DecidableEq, Repr

/-- The constructor. -/
def init (clkFreqHz : BitVec 64) (data : Nat → BitVec 8) (dataLenBytes baurdRate payloadBits
    cyclesDelay : BitVec 64) (currentState : BitVec 8) : UartEncoder where
  txData := data
  txDataBytes := dataLenBytes
  cycleCounter := 0
  bitCounter := 0
  txBitCounter := 0
  cyclesPerBit := clkFreqHz / baurdRate
  cyclesToDelay := cyclesDelay
  payloadBits := payloadBits
  ueMutex := false
  currentLogicVal := true
  currentState := currentState
  nextState := stateIdle

def getTxDataBit (bitIndex : BitVec 64) (data : Nat → BitVec 8) : Bool :=
  (data (bitIndex >>> 3).toNat).getLsbD (bitIndex % 8).toNat

def getBit (e : UartEncoder) : Bool :=
  if e.currentState = stateIdle then true
  else if e.currentState = stateStartBit then false
  else if e.currentState = stateDataBits then getTxDataBit e.txBitCounter e.txData
  else if e.currentState = stateStopBit then true
  else false

def onUpdate (e : UartEncoder) : UartEncoder :=
  let e := { e with currentState := e.nextState }
  let e := { e with currentLogicVal := e.getBit }
  if e.currentState = stateIdle then { e with nextState := stateStartBit }
  else if e.currentState = stateStartBit then { e with nextState := stateDataBits }
  else if e.currentState = stateDataBits then
    let e := { e with bitCounter := e.bitCounter + 1, txBitCounter := e.txBitCounter + 1 }
    if e.bitCounter = e.payloadBits then { e with bitCounter := 0, nextState := stateStopBit }
    else e
  else if e.currentState = stateStopBit then { e with nextState := stateIdle }
  else e

/-- What `tick` does at the start of a bit. -/
def update (e : UartEncoder) : UartEncoder :=
  if e.txBitCounter < 8 * e.txDataBytes ∨ e.currentState ≠ stateIdle then e.onUpdate else e

/-- `tick`. The return that counts the delay down leaves the mutex locked. -/
def tick (e : UartEncoder) : Except Fault UartEncoder := do
  if e.ueMutex then throw .blocked
  let e := { e with ueMutex := true }
  if e.cyclesToDelay > 0 then return { e with cyclesToDelay := e.cyclesToDelay - 1 }
  if e.cyclesPerBit = 0 then throw .divZero
  let e := if e.cycleCounter % e.cyclesPerBit = 0 then e.update else e
  return { e with cycleCounter := e.cycleCounter + 1, ueMutex := false }

def resetData (e : UartEncoder) (data : Nat → BitVec 8) (dataLenBytes : BitVec 64) :
    Except Fault UartEncoder := do
  if e.ueMutex then throw .blocked
  return { e with
    txBitCounter := 0
    txDataBytes := dataLenBytes
    txData := data
    nextState := stateIdle }

def finished (e : UartEncoder) : Bool :=
  decide (8 * e.txDataBytes ≤ e.txBitCounter) && e.currentState == stateIdle

/-- `n` ticks. -/
def ticks (e : UartEncoder) : Nat → Except Fault UartEncoder
  | 0 => .ok e
  | n + 1 => e.ticks n >>= tick

end UartEncoder

end NextEmu.Device
