import NextEmu.Sdk.AddrBus

/-!
# The AXI-Lite adapter

`AXILiteAdapter::store`. It cuts a buffer into words of the bus width and hands each to
`axiliteStore4B` or `axiliteStore8B`, and the bytes that are left to one more of these.
What one of them does with the bus is a parameter here: a transaction that a slave
answers, or a handshake of signals.
-/

namespace NextEmu.RtlAdapter

open NextEmu.Sdk

/-- The widths that the constructor takes. -/
inductive BitWidth
  | w32
  | w64
  deriving DecidableEq, Repr

namespace BitWidth

def byteSize : BitWidth → Nat
  | w32 => 4
  | w64 => 8

/-- An address or a word of data. -/
abbrev Word (w : BitWidth) := BitVec (8 * w.byteSize)

/-- The strobe of a whole word. -/
def fullStrobe : BitWidth → BitVec 8
  | w32 => 0b1111
  | w64 => 0b11111111

end BitWidth

def axiWriteFbSuccess : BitVec 8 := 0b00

def axiWriteFbDecodeErr : BitVec 8 := 0b11

/-- What `store` returns for a response at once, if anything. -/
def writeRefusal (resp : BitVec 8) : Option Feedback :=
  if resp ≠ axiWriteFbSuccess then
    if resp = axiWriteFbDecodeErr then some .outOfRange else some .unknownErr
  else none

section Store

variable {m : Type → Type} [Monad m] (w : BitWidth)
  (axiliteStore : w.Word → BitVec 8 → w.Word → m (BitVec 8))

/-- The loop over the whole words: `n` of them are left, from `bytesStored` on. -/
def storeWords (beginAddr : Addr) (buffer : Nat → BitVec 8) : Nat → Nat → m (Option Feedback)
  | 0, _ => return none
  | n + 1, bytesStored => do
    let addr := beginAddr + BitVec.ofNat 64 bytesStored
    let resp ← axiliteStore (addr.setWidth _) w.fullStrobe
      (readBytes buffer bytesStored w.byteSize)
    match writeRefusal resp with
    | some fb => return some fb
    | none => storeWords beginAddr buffer n (bytesStored + w.byteSize)

/-- `AXILiteAdapter::store`. The strobe of the bytes left is their number. -/
def store (beginAddr : Addr) (len : Nat) (buffer : Nat → BitVec 8) : m Feedback := do
  let alignedLen := len - len % w.byteSize
  match ← storeWords w axiliteStore beginAddr buffer (alignedLen / w.byteSize) 0 with
  | some fb => return fb
  | none =>
    let lenLeft := len % w.byteSize
    let addr := beginAddr + BitVec.ofNat 64 alignedLen
    let resp ← axiliteStore (addr.setWidth _) (BitVec.ofNat 8 lenLeft)
      ((readBytes buffer alignedLen lenLeft).setWidth _)
    return (writeRefusal resp).getD .success

end Store

end NextEmu.RtlAdapter
