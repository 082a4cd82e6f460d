import NextEmu.Sdk.WireSignal

/-!
# The logic analyzer

`sdk/base/LogicAnalyzer.hpp`. A channel refers to an atomic or to a bit of a wire signal, and
`Host` is what those hold at a tick. A new analyzer has a trigger signal whose pointer is null,
here `none`. The numbers of ticks that `tick` is called with, the path of the dump and
`last_val` of a channel, which nothing reads, are left out.
-/

namespace NextEmu.Sdk

structure Host where
  bits : Nat → BitVal
  wires : Nat → WireSignal

namespace LogicAnalyzer

/-- What `bit_val_type` tells apart in the union of a signal. -/
inductive Ref
  | simple (signalRef : Nat)
  | wireSignal (wireSignalPtr : Nat) (bitIndex : Nat)
  deriving DecidableEq, Repr

structure Signal where
  descName : String
  sigId : String
  ref : Ref
  deriving DecidableEq, Repr

def Signal.loadBitVal (s : Signal) (host : Host) : BitVal :=
  match s.ref with
  | .simple signalRef => host.bits signalRef
  | .wireSignal wireSignalPtr bitIndex => (host.wires wireSignalPtr).getBit bitIndex

/-- Where a call does not return. -/
inductive Fault
  | divZero
  | nullDeref
  | assertion
  deriving DecidableEq, Repr

def triggerModeLow : BitVec 8 := 0
def triggerModeHigh : BitVec 8 := 1
def triggerModePosedge : BitVec 8 := 2
def triggerModeNegedge : BitVec 8 := 3
def triggerModeEdge : BitVec 8 := 4
def triggerModeAnalog : BitVec 8 := 5

end LogicAnalyzer

open LogicAnalyzer

structure LogicAnalyzer where
  timeScaleNs : BitVec 64
  cycleDurationNs : BitVec 64
  currentMomentNs : BitVec 64
  freqHz : BitVec 64
  sampleCounter : BitVec 64
  sampleTimes : BitVec 64
  triggerMode : BitVec 8
  triggered : Bool
  triggerSignal : Option Signal
  lastTriggerSignalVal : BitVal
  signals : List Signal
  vcdStrStream : String

namespace LogicAnalyzer

/-- The constructor. -/
def init (timeScaleNs : BitVec 64) (triggerMode : BitVec 8) (freqHz : BitVec 64)
    (sampleTimes : BitVec 64 := 100) : Except Fault LogicAnalyzer :=
  if freqHz = 0 then .error .divZero
  else .ok {
    timeScaleNs := timeScaleNs
    cycleDurationNs := 1000000000 / freqHz
    currentMomentNs := 0
    freqHz := freqHz
    sampleCounter := 0
    sampleTimes := sampleTimes
    triggerMode := triggerMode
    triggered := triggerMode = triggerModeAnalog
    triggerSignal := none
    lastTriggerSignalVal := bitUndef
    signals := []
    vcdStrStream := "$date  $end\n$version NextEmu LogicAnalyzer $end\n" ++
      "$comment\n  Acquisition with " ++ toString 0 ++ " channels at " ++
      toString freqHz.toNat ++ " Hz\n$end\n$timescale " ++ toString timeScaleNs.toNat ++
      " ns $end\n" }

/-- Both functions of the name `addChannel`; only wire signals have a width to be checked. -/
def addChannel (la : LogicAnalyzer) (host : Host) (s : Signal) (isTrigger : Bool := false) :
    Except Fault LogicAnalyzer :=
  let added := { la with
    signals := la.signals ++ [s]
    triggerSignal := if isTrigger then some s else la.triggerSignal }
  match s.ref with
  | .simple _ => .ok added
  | .wireSignal wireSignalPtr bitIndex =>
    if bitIndex < (host.wires wireSignalPtr).busWidth then .ok added else .error .assertion

def isTriggered (lastVal currentVal : BitVal) (triggerMode : BitVec 8) : Bool :=
  if triggerMode = triggerModeLow then currentVal = bitNeg
  else if triggerMode = triggerModeHigh then currentVal = bitPos
  else if triggerMode = triggerModePosedge then lastVal = bitNeg ∧ currentVal = bitPos
  else if triggerMode = triggerModeNegedge then lastVal = bitPos ∧ currentVal = bitNeg
  else if triggerMode = triggerModeAnalog then true
  else false

/-- The declarations of the signals. -/
def buildVcdHeader (la : LogicAnalyzer) : LogicAnalyzer :=
  { la with vcdStrStream := la.vcdStrStream ++ "$scope module la $end" ++
      String.join (la.signals.map fun s => "$var wire 1 " ++ s.sigId ++ " " ++ s.descName ++
        " $end\n") ++
      "$upscope $end\n$enddefinitions $end\n" }

/-- `moment_dump`, the line of one tick. -/
def momentDump (la : LogicAnalyzer) (host : Host) : String :=
  "#" ++ toString (la.sampleCounter * la.cycleDurationNs).toNat ++ " " ++
    String.join (la.signals.map fun s =>
      toString (s.loadBitVal host).toNat ++ s.sigId ++ " ") ++ "\n"

/-- `tick`. What it sets `triggered` to before it calls `isTriggered` is overwritten by that. -/
def tick (la : LogicAnalyzer) (host : Host) : Except Fault LogicAnalyzer := do
  let la ←
    if la.triggered = false then
      match la.triggerSignal with
      | none => throw .nullDeref
      | some s =>
        let currentTriggerSignalVal := s.loadBitVal host
        pure { la with
          triggered := isTriggered la.lastTriggerSignalVal currentTriggerSignalVal la.triggerMode
          lastTriggerSignalVal := currentTriggerSignalVal }
    else
      pure { la with
        vcdStrStream := la.vcdStrStream ++ la.momentDump host
        sampleCounter := la.sampleCounter + 1 }
  return { la with currentMomentNs := la.currentMomentNs + la.cycleDurationNs }

/-- `n` ticks. -/
def ticks (la : LogicAnalyzer) (hosts : Nat → Host) : Nat → Except Fault LogicAnalyzer
  | 0 => .ok la
  | n + 1 => do
    let la ← la.ticks hosts n
    la.tick (hosts n)

end LogicAnalyzer

end NextEmu.Sdk
