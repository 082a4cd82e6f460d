import NextEmu.Lib.SumCheck

/-!
# Packets of the debugger stub

`recvAndCheck` and the bytes that `packingAndSend` writes. A packet is its data between
`$` and `#` and two digits of their sum modulo 256. The reader takes bytes up to `#`, at
most as many as the buffer holds, and the packet starts behind the last `$` among them.
-/

namespace NextEmu.GdbStub

open NextEmu.Lib.SumCheck

abbrev Byte := BitVec 8

/-- The codes of `FuncReturnFeedback_e` that the stub compares with; the others are one. -/
inductive FuncReturnFeedback
  | memuOk
  | memuProtocolErr
  | memuChksumErr
  | memuUnknown
  deriving DecidableEq, Repr

def packetBeginChar : Byte := 0x24

def packetEndChar : Byte := 0x23

def bufferSize : Nat := 8192

/-! ## Digits -/

/-- The value of a character as a hexadecimal digit. -/
def hexVal (c : Byte) : Option Nat :=
  if 0x30 ≤ c.toNat ∧ c.toNat ≤ 0x39 then some (c.toNat - 0x30)
  else if 0x41 ≤ c.toNat ∧ c.toNat ≤ 0x46 then some (c.toNat - 0x37)
  else if 0x61 ≤ c.toNat ∧ c.toNat ≤ 0x66 then some (c.toNat - 0x57)
  else none

/-- The digit that `%x` prints. -/
def hexDigit (v : Nat) : Byte := BitVec.ofNat 8 (if v < 10 then 0x30 + v else 0x57 + v)

/-- `sprintf` with `%02x`. -/
def sprintfHex (b : Byte) : List Byte := [hexDigit (b.toNat / 16), hexDigit (b.toNat % 16)]

/-- `isspace`. -/
def isSpace (c : Byte) : Bool := c = 0x20 || (0x09 ≤ c.toNat && c.toNat ≤ 0x0d)

/-- `sscanf` of two characters with `%02x`; none when nothing is assigned. -/
def sscanfHex (c₀ c₁ : Byte) : Option Nat :=
  match hexVal c₀ with
  | some v => some (match hexVal c₁ with
    | some v' => 16 * v + v'
    | none => v)
  | none =>
    -- one white space or sign counts, as one of the two characters
    if isSpace c₀ || c₀ = 0x2b then hexVal c₁
    else if c₀ = 0x2d then (hexVal c₁).map (2 ^ 32 - ·)
    else none

/-! ## The checksum and the packet -/

/-- `CalCheckSum_GDB_RSP_Utils`: `char` is signed, and the sum is one of 64 bits. -/
def calCheckSum (data : List Byte) : Byte :=
  (data.foldl (fun (sum : BitVec 64) (c : Byte) => sum + c.signExtend 64) 0#64).setWidth 8

/-- What `packingAndSend` writes. -/
def packing (data : List Byte) : List Byte :=
  packetBeginChar :: data ++ packetEndChar :: sprintfHex (calCheckSum data)

/-! ## Receiving -/

/-- `getc`; the end of the input is the character of -1. -/
def getc : List Byte → Byte × List Byte
  | [] => (0xff, [])
  | c :: cs => (c, cs)

/-- The loop of `recvAndCheck`, with `n` of its turns left: what is in the buffer, the index behind
the last `$` (none is -1), and the input. None when the buffer is full. -/
def recvLoop : Nat → List Byte → Option Nat → List Byte →
    Option (List Byte × Option Nat × List Byte)
  | 0, _, _, _ => none
  | n + 1, buffer, packetBeginIndex, input =>
    let (ch, input) := getc input
    let packetBeginIndex :=
      if ch = packetBeginChar then some (buffer.length + 1) else packetBeginIndex
    if ch = packetEndChar then some (buffer ++ [ch], packetBeginIndex, input)
    else recvLoop n (buffer ++ [ch]) packetBeginIndex input

/-- What a call returns, the packet that it saves, and the input behind it. -/
structure Received where
  feedback : FuncReturnFeedback
  packet : List Byte
  rest : List Byte
  deriving DecidableEq

/-- `recvAndCheck`; none when it exits. `stale` is what was in `chk_sum_recv`, which stays there
when `sscanf` assigns nothing. -/
def recvAndCheck (stale : Byte) (input : List Byte) : Option Received :=
  match recvLoop bufferSize [] none input with
  | none => none
  | some (buffer, packetBeginIndex, rest) =>
    let (c₀, rest) := getc rest
    let (c₁, rest) := getc rest
    let chkSumRecv := ((sscanfHex c₀ c₁).map (BitVec.ofNat 8)).getD stale
    match packetBeginIndex with
    | none => some ⟨.memuProtocolErr, [], rest⟩
    | some start =>
      let packetSize := buffer.length - 1 - start
      let packet := (buffer.drop start).take packetSize
      if chkSumRecv ≠ calCheckSum packet then some ⟨.memuChksumErr, [], rest⟩
      else some ⟨.memuOk, packet, rest⟩

/-! ## Facts about the digits and the sum -/

section Facts

theorem hexVal_hexDigit {v : Nat} (h : v < 16) : hexVal (hexDigit v) = some v := by
  have hall : ∀ v < 16, hexVal (hexDigit v) = some v := by decide
  exact hall v h

theorem sscanfHex_digits {c₀ c₁ : Byte} {v v' : Nat} (h₀ : hexVal c₀ = some v)
    (h₁ : hexVal c₁ = some v') : sscanfHex c₀ c₁ = some (16 * v + v') := by
  unfold sscanfHex
  rw [h₀, h₁]

theorem calCheckSum_total (data : List Byte) : calCheckSum data = total data :=
  total_signExtend (by decide) data

end Facts

end NextEmu.GdbStub
