import Mathlib.Data.Finset.Insert
import NextEmu.GdbStub.Packets
import NextEmu.Lib.AbortState

/-!
# The debugger stub

`GDBStub`, with the core that it debugs as a parameter. Each call of `recvAndCheck` opens a
stream of its own, so what it reads is one text of the input; the acknowledgements of the
debugger are read without a stream and are another input.
-/

namespace NextEmu.GdbStub

/-- `RegisterItem_t`, without the name. -/
structure RegisterItem where
  regId : Nat
  size : Nat
  val : BitVec 64

/-- `Debuggable_I`, over the states of a core. -/
structure Debuggable (κ : Type) where
  dumpAllRegister : κ → List RegisterItem × κ
  writeAllRegister : List RegisterItem → κ → FuncReturnFeedback × κ
  memRead : BitVec 64 → BitVec 64 → κ → (FuncReturnFeedback × (Nat → Byte)) × κ
  memWrite : BitVec 64 → BitVec 64 → List Byte → κ → FuncReturnFeedback × κ
  dumpProgramCounter : κ → BitVec 64 × κ
  step : κ → κ
  isaBitLen : Nat
  isaBitLen_eq : isaBitLen = 32 ∨ isaBitLen = 64

/-- What the stub runs on: the core, the bytes that one `alloca` can have, which are enough for
what a packet needs and fewer than an `int` counts, and the byte that `sscanf` leaves alone. -/
structure Host (κ : Type) where
  core : Debuggable κ
  room : Nat
  room_large : 4 * bufferSize ≤ room
  room_small : room < 2 ^ 31
  stale : Byte

/-- What an observer sees. -/
inductive Event
  | received (text : List Byte)
  | plus
  | minus
  | dispatched (data : List Byte)
  | packet (data : List Byte)
  | resent (data : List Byte)
  deriving DecidableEq

/-- The stub and what it is connected to. -/
structure World (κ : Type) where
  core : κ
  watchPointPCs : Finset (BitVec 64)
  input : List (List Byte)
  acks : List Byte
  trace : List Event

/-- The ways to stop: `exit`, a failed assertion, an `alloca` that does not fit, waiting for input,
and a loop that needs more turns than it was given. -/
inductive Stop
  | exit
  | assertion
  | overflow
  | blocked
  | running
  deriving DecidableEq, Repr

abbrev Stub (κ : Type) := EStateM Stop (World κ)

section Stub

variable {κ : Type} (host : Host κ)

def emit (e : Event) : Stub κ Unit := modify fun w => { w with trace := w.trace ++ [e] }

def assertThat (p : Prop) [Decidable p] : Stub κ Unit := if p then pure () else throw .assertion

def alloca (n : Nat) : Stub κ Unit := if n ≤ host.room then pure () else throw .overflow

/-- A call of the core. -/
def onCore {ρ : Type} (f : κ → ρ × κ) : Stub κ ρ :=
  modifyGet fun w => ((f w.core).1, { w with core := (f w.core).2 })

/-! ## Packets in and out -/

def sendACK : Stub κ Unit := emit .plus

def sendNAK : Stub κ Unit := emit .minus

/-- `recvAndCheck` on the next text. -/
def receive : Stub κ (FuncReturnFeedback × List Byte) := do
  match (← get).input with
  | [] => throw .blocked
  | text :: input =>
    modify fun w => { w with input := input }
    emit (.received text)
    match recvAndCheck host.stale text with
    | none => throw .exit
    | some r => return (r.feedback, r.packet)

/-- One of the loops of `recvPacket`, with `left` retries left. -/
def retry (err : FuncReturnFeedback) :
    Nat → FuncReturnFeedback × List Byte → Stub κ (Nat × FuncReturnFeedback × List Byte)
  | 0, r => if r.1 = err then throw .exit else return (0, r)
  | left + 1, r =>
    if r.1 = err then do
      sendNAK
      retry err left (← receive host)
    else return (left + 1, r)

def recvPacket : Stub κ (FuncReturnFeedback × List Byte) := do
  let r ← receive host
  let (left, r) ← retry host .memuChksumErr 10 r
  let (_, r) ← retry host .memuProtocolErr left r
  sendACK
  return r

/-- `read` of one acknowledgement; at the end of the input the last one stays. -/
def readAck (ack : Byte) : Stub κ Byte := modifyGet fun w =>
  match w.acks with
  | [] => (ack, w)
  | a :: acks => (a, { w with acks := acks })

/-- The loop that sends a packet again. -/
def resend (data : List Byte) : Nat → Byte → Stub κ Unit
  | 0, _ => pure ()
  | left + 1, ack =>
    if ack ≠ ascii '+' then do
      emit (.resent data)
      resend data left (← readAck ack)
    else pure ()

def packingAndSend (data : List Byte) : Stub κ Unit := do
  alloca host (data.length + 5)
  emit (.packet data)
  alloca host (data.length + 5)
  let ack ← readAck (ascii '-')
  resend data 10 ack

/-! ## Commands -/

def e01 : List Byte := [ascii 'E', ascii '0', ascii '1']

def s05 : List Byte := [ascii 'S', ascii '0', ascii '5']

/-- The registers as digits, each in little-endian order. -/
def dumpString (regs : List RegisterItem) : List Byte :=
  regs.flatMap fun reg =>
    (List.range reg.size).flatMap fun i => sprintfHex (reg.val.extractLsb' (8 * i) 8)

def cmdReadAllRegister : Stub κ Unit := do
  let regs ← onCore host.core.dumpAllRegister
  let dumpStr := dumpString regs
  alloca host (dumpStr.length + 1)
  packingAndSend host dumpStr

/-- `ParseByteStreamStr`. -/
def parseByteStreamStr (s : List Byte) : Stub κ (List Byte) := do
  assertThat (s.length % 2 = 0)
  return byteStream s

/-- The registers of `regNum` runs of `regSize` bytes. -/
def registerItems (regNum regSize : Nat) (bytes : List Byte) : List RegisterItem :=
  (List.range regNum).map fun i =>
    { regId := i
      size := regSize
      val := ((List.range regSize).foldr (fun k v =>
        v <<< 8 ||| (bytes.getD (i * regSize + k) 0).setWidth 64) 0#64) }

def cmdWriteAllRegister (packet : Packet) : Stub κ Unit := do
  assertThat (packet.packetType = .cmdRegWriteAll)
  match packet.paramList with
  | [data] =>
    if data.length % (host.core.isaBitLen / 4) ≠ 0 then packingAndSend host []
    else do
      let regNum := data.length / (host.core.isaBitLen / 4)
      let regSize := host.core.isaBitLen / 8
      alloca host (regNum * regSize)
      let bytes ← parseByteStreamStr data
      let feedback ← onCore (host.core.writeAllRegister (registerItems regNum regSize bytes))
      if feedback ≠ .memuOk then packingAndSend host e01
  | _ => packingAndSend host []

def cmdGetHaltReason : Stub κ Unit := packingAndSend host s05

def hwbreak : List Byte := ['h', 'w', 'b', 'r', 'e', 'a', 'k'].map ascii

def supportedString (features : List (List Byte)) : List Byte :=
  features.flatMap fun str => if str = hwbreak then hwbreak ++ [ascii '+'] else []

def cmdQSupported (packet : Packet) : Stub κ Unit := do
  let supportedStr := supportedString packet.paramList
  alloca host (supportedStr.length + 1)
  packingAndSend host supportedStr

def cmdUnknown : Stub κ Unit := packingAndSend host []

def cmdMemRead (packet : Packet) : Stub κ Unit := do
  assertThat (packet.packetType = .cmdMemRead)
  match packet.paramList with
  | [addr, len] =>
    let len := (strtoll len).toNat
    alloca host len
    let (feedback, data) ← onCore (host.core.memRead (strtoll addr) (BitVec.ofNat 64 len))
    if feedback = .memuOk then do
      alloca host (2 * len + 1)
      packingAndSend host ((List.range len).flatMap fun i => sprintfHex (data i))
    else packingAndSend host e01
  | _ => packingAndSend host []

def cmdMemWrite (packet : Packet) : Stub κ Unit := do
  assertThat (packet.packetType = .cmdMemWrite)
  match packet.paramList with
  | [addr, len, data] =>
    if 2 * strtoll len ≠ BitVec.ofNat 64 data.length then packingAndSend host []
    else do
      alloca host (strtoll len).toNat
      let bytes ← parseByteStreamStr data
      let feedback ← onCore (host.core.memWrite (strtoll addr) (strtoll len) bytes)
      if feedback ≠ .memuOk then packingAndSend host e01
  | _ => packingAndSend host []

/-- The type of a breakpoint, a `long` cut to an `int`. -/
def watchpointType (s : List Byte) : BitVec 32 := (strtoll s).setWidth 32

/-- `cmd_InsertBreakpoint` and `cmd_RemoveBreakpoint`: the check of the packet, the change of the
set and the reply. -/
def cmdBreakpoint (packetType : PacketType)
    (change : Finset (BitVec 64) → BitVec 64 → Finset (BitVec 64)) (packet : Packet) :
    Stub κ Unit := do
  assertThat (packet.packetType = packetType)
  match packet.paramList with
  | [type, addr, _] =>
    if watchpointType type ≠ 0 ∧ watchpointType type ≠ 1 then packingAndSend host []
    else do
      modify fun w => { w with watchPointPCs := change w.watchPointPCs (strtoll addr) }
      packingAndSend host [ascii 'O', ascii 'K']
  | _ => packingAndSend host []

def cmdInsertBreakpoint (packet : Packet) : Stub κ Unit :=
  cmdBreakpoint host .cmdInsertBreakpoint (fun s pc => insert pc s) packet

def cmdRemoveBreakpoint (packet : Packet) : Stub κ Unit :=
  cmdBreakpoint host .cmdRemoveBreakpoint (fun s pc => s.erase pc) packet

def hitsWatchPoint : Stub κ Bool := do
  let pc ← onCore host.core.dumpProgramCounter
  return decide (pc ∈ (← get).watchPointPCs)

/-- The loop of `cmd_Continue`. -/
def runToWatchPoint : Nat → Stub κ Unit
  | 0 => throw .running
  | fuel + 1 => do
    if ← hitsWatchPoint host then pure ()
    else
      modify fun w => { w with core := host.core.step w.core }
      runToWatchPoint fuel

def cmdContinue (fuel : Nat) (packet : Packet) : Stub κ Unit := do
  assertThat (packet.packetType = .cmdContinue)
  if packet.paramList.length ≠ 0 then packingAndSend host []
  else do
    runToWatchPoint host fuel
    packingAndSend host s05

/-! ## The loop -/

/-- The cases of the `switch`. -/
def dispatch (fuel : Nat) (packet : Packet) : Option (Stub κ Unit) :=
  match packet.packetType with
  | .cmdQueryHaltReason => some (cmdGetHaltReason host)
  | .cmdRegReadAll => some (cmdReadAllRegister host)
  | .cmdRegWriteAll => some (cmdWriteAllRegister host packet)
  | .cmdQSupported => some (cmdQSupported host packet)
  | .cmdMemRead => some (cmdMemRead host packet)
  | .cmdMemWrite => some (cmdMemWrite host packet)
  | .cmdInsertBreakpoint => some (cmdInsertBreakpoint host packet)
  | .cmdRemoveBreakpoint => some (cmdRemoveBreakpoint host packet)
  | .cmdContinue => some (cmdContinue host fuel packet)
  | .emptyPacket => some (pure ())
  | .cmdUnknown => some (cmdUnknown host)
  | _ => none

/-- Parse packet & perform action. -/
def perform (fuel : Nat) (data : List Byte) : Stub κ Unit := do
  alloca host (data.length + 1)
  match dispatch host fuel (parsePacket data) with
  | some command => do
    emit (.dispatched data)
    sendACK
    command
  | none => throw .assertion

/-- One turn of `Debug_GDBStub`. -/
def round (fuel : Nat) : Stub κ Unit := do
  let (feedback, data) ← recvPacket host
  if feedback ≠ .memuOk then throw .exit else perform host fuel data

/-- `Debug_GDBStub`, for some turns. -/
def debugGDBStub (fuel : Nat) : Nat → Stub κ Unit
  | 0 => throw .running
  | turns + 1 => do
    round host fuel
    debugGDBStub fuel turns

end Stub

/-- `rv64` is one of the two widths. -/
theorem rv64_width : 64 = 32 ∨ 64 = 64 := .inr rfl

/-- A core without registers that refuses every request. -/
def idleCore : Debuggable Unit where
  dumpAllRegister _ := ([], ())
  writeAllRegister _ _ := (.memuUnknown, ())
  memRead _ _ _ := ((.memuUnknown, fun _ => 0), ())
  memWrite _ _ _ _ := (.memuUnknown, ())
  dumpProgramCounter _ := (0, ())
  step _ := ()
  isaBitLen := 64
  isaBitLen_eq := rv64_width

def idleHost : Host Unit where
  core := idleCore
  room := 4 * bufferSize
  room_large := Nat.le_refl _
  room_small := by decide
  stale := 0

/-- The stub at its start, with some input. -/
def idleWorld (input : List (List Byte)) : World Unit :=
  { core := (), watchPointPCs := ∅, input := input, acks := [ascii '+'], trace := [] }

end NextEmu.GdbStub
