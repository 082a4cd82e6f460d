import Mathlib.Computability.RegularExpressions
import NextEmu.GdbStub.Framing

/-!
# The commands of a packet

`gdb_rsp.cpp`: a command is told by the first regular expression that matches the whole
packet, in the order of the map, and its parameters are what a second one finds in it. The
packet is a C string there, so it ends at its first NUL.
-/

namespace NextEmu.GdbStub

open RegularExpression

/-- `GDB_RSP_PacketType_e`. -/
inductive PacketType
  | cmdUnknown
  | cmdMemRead
  | cmdMemWrite
  | cmdRegReadIndex
  | cmdRegWriteIndex
  | cmdRegReadAll
  | cmdRegWriteAll
  | cmdQTraceStatus
  | cmdQueryHaltReason
  | cmdSingleStep
  | cmdInsertBreakpoint
  | cmdRemoveBreakpoint
  | cmdContinue
  | cmdSpecifyThreadForG
  | cmdSpecifyThreadForC
  | cmdQAttached
  | cmdQSupported
  | cmdQThreadInfo
  | emptyPacket
  deriving DecidableEq, Repr

/-- `GDB_RSP_Packet`, without the text that nothing reads. -/
structure Packet where
  packetType : PacketType
  paramList : List (List Byte)
  deriving DecidableEq

def ascii (c : Char) : Byte := BitVec.ofNat 8 c.toNat

/-! ## The expressions of the commands -/

def oneOf (cs : List Byte) : RegularExpression Byte := (cs.map char).foldr (· + ·) 0

/-- `[0-9A-Fa-f]+` -/
def hexDigits : RegularExpression Byte :=
  let digit := oneOf <| ['0', '1', '2', '3', '4', '5', '6', '7', '8', '9', 'A', 'B', 'C', 'D', 'E',
    'F', 'a', 'b', 'c', 'd', 'e', 'f'].map ascii
  digit * star digit

/-- `.`, which matches no line terminator. -/
def anyChar : RegularExpression Byte :=
  oneOf (((List.range 256).map (BitVec.ofNat 8)).filter fun c => c != 0x0a && c != 0x0d)

/-- `^qSupported:.*` -/
def qSupportedRegex : RegularExpression Byte :=
  (['q', 'S', 'u', 'p', 'p', 'o', 'r', 't', 'e', 'd', ':'].map (char ∘ ascii)).foldr (· * ·)
    (star anyChar)

/-! ## The expressions of the parameters -/

def isHexDigit (c : Byte) : Bool := (hexVal c).isSome

/-- `-|\w` -/
def isWordOrDash (c : Byte) : Bool :=
  c == ascii '-' || c == ascii '_' || (0x30 ≤ c.toNat && c.toNat ≤ 0x39) ||
    (0x41 ≤ c.toNat && c.toNat ≤ 0x5a) || (0x61 ≤ c.toNat && c.toNat ≤ 0x7a)

/-- What an expression matches at the start of a text, and the rest of the text. -/
abbrev ParamRegex := List Byte → Option (List Byte × List Byte)

/-- `([0-9A-Fa-f]+)` -/
def hexParam : ParamRegex := fun s =>
  let digits := s.takeWhile isHexDigit
  if digits = [] then none else some (digits, s.dropWhile isHexDigit)

/-- `.([0-9A-Fa-f]+)` -/
def continueParam : ParamRegex
  | [] => none
  | c :: s =>
    if c = 0x0a ∨ c = 0x0d then none
    else (hexParam s).map fun (digits, rest) => (c :: digits, rest)

/-- `(-|\w)+(?=\+)` -/
def featureParam : ParamRegex := fun s =>
  let word := s.takeWhile isWordOrDash
  let rest := s.dropWhile isWordOrDash
  if word ≠ [] ∧ rest.head? = some (ascii '+') then some (word, rest) else none

/-- `std::sregex_iterator`: the matches from left to right. A text of length `n` has at most `n`. -/
def findAll (regex : ParamRegex) : Nat → List Byte → List (List Byte)
  | 0, _ => []
  | n + 1, s =>
    match regex s with
    | some (found, rest) => found :: findAll regex n rest
    | none =>
      match s with
      | [] => []
      | _ :: s => findAll regex n s

/-! ## Parsing -/

/-- `PacketTypeRegexStr_GV`, in the order of the keys. -/
def packetTypeRegexStr : List (PacketType × RegularExpression Byte × Option ParamRegex) := [
  (.cmdMemRead, char (ascii 'm') * hexDigits * char (ascii ',') * hexDigits, some hexParam),
  (.cmdMemWrite, char (ascii 'M') * hexDigits * char (ascii ',') * hexDigits * char (ascii ':') *
    hexDigits, some hexParam),
  (.cmdRegReadIndex, char (ascii 'p') * hexDigits, some hexParam),
  (.cmdRegReadAll, char (ascii 'g'), none),
  (.cmdRegWriteAll, char (ascii 'G') * hexDigits, some hexParam),
  (.cmdQueryHaltReason, char (ascii '?'), none),
  (.cmdInsertBreakpoint, char (ascii 'Z') * hexDigits * char (ascii ',') * hexDigits *
    char (ascii ',') * hexDigits, some hexParam),
  (.cmdRemoveBreakpoint, char (ascii 'z') * hexDigits * char (ascii ',') * hexDigits *
    char (ascii ',') * hexDigits, some hexParam),
  (.cmdContinue, char (ascii 'c') * hexDigits + char (ascii 'c'), some continueParam),
  (.cmdQSupported, qSupportedRegex, some featureParam)]

/-- `ParsePacket_GDB_RSP_Utils`. The type that it gives an empty packet is overwritten at its
end. -/
def parsePacket (data : List Byte) : Packet :=
  let dataStr := data.takeWhile (· != 0)
  match packetTypeRegexStr.find? fun p => p.2.1.rmatch dataStr with
  | some (packetType, _, param) =>
    { packetType
      paramList := match param with
        | some regex => findAll regex (dataStr.length + 1) dataStr
        | none => [] }
  | none => { packetType := .cmdUnknown, paramList := [] }

/-- `strtoll` of hexadecimal digits, which stops at the greatest `long long`. -/
def strtoll (s : List Byte) : BitVec 64 :=
  BitVec.ofNat 64 (min (s.foldl (fun v c => 16 * v + (hexVal c).getD 0) 0) (2 ^ 63 - 1))

/-- The loop of `ParseByteStreamStr`. -/
def byteStream : List Byte → List Byte
  | c₀ :: c₁ :: s => BitVec.ofNat 8 (16 * (hexVal c₀).getD 0 + (hexVal c₁).getD 0) :: byteStream s
  | _ => []

example : parsePacket ("Maa,b:cccc".toList.map ascii) =
    ⟨.cmdMemWrite, ["aa".toList.map ascii, "b".toList.map ascii, "cccc".toList.map ascii]⟩ := by
  decide +kernel

end NextEmu.GdbStub
