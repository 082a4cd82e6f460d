import NextEmu.Simple.Inst
import NextEmu.Simple.Sv39

/-!
# Atomic memory operations

`rv64_amo.cpp`. Each of the three operations works without translation or through
`pagedAccess`, and answers with an exception number, `Exec.ok` for none.
-/

namespace NextEmu.Simple

open NextEmu.Sdk

variable {β : Type}

/-- The word that an AMO stores, of the operand and the old word; no word for LR and SC. -/
def amoResult (op : AMOFunct) (src res : BitVec 64) : Option (BitVec 64) :=
  match op with
  | .swap => some src
  | .add => some (src + res)
  | .and => some (src &&& res)
  | .or => some (src ||| res)
  | .xor => some (src ^^^ res)
  | .max => some (if src.slt res then res else src)
  | .min => some (if res.slt src then res else src)
  | .maxu => some (if src.ult res then res else src)
  | .minu => some (if res.ult src then res else src)
  | .lr | .sc => none

variable [SlaveAtomicIOI β]

/-- The load of `pa_amo_op`: 32 bits are sign-extended. -/
def amoLoad (pa : Addr) (size : Nat) : Emu β (Feedback × BitVec 64) :=
  if size = 4 then do
    let (feedback, res) ← doLoad pa 4
    return (feedback, res.signExtend 64)
  else do
    let (feedback, res) ← doLoad pa 8
    return (feedback, res)

/-- `pa_amo_op`, with `dst`. -/
def paAmoOp (pa : Addr) (size : Nat) (op : AMOFunct) (src : BitVec 64) :
    Emu β (Bool × BitVec 64) := do
  let (feedback, res) ← amoLoad pa size
  if feedback ≠ .success then
    return (false, 0)
  match amoResult op src res with
  | none => throw .amoOp
  | some toWrite =>
    let feedback ← doStore pa size (toWrite.setWidth (8 * size))
    return (decide (feedback = .success), res)

/-- An AMO at a physical address, with its exception number. -/
def physAmo (pa : Addr) (size : Nat) (op : AMOFunct) (src : BitVec 64) :
    Emu β (BitVec 63 × BitVec 64) := do
  let (amoFb, dst) ← paAmoOp pa size op src
  return (if amoFb then Exec.ok else Exec.storeAccFault, dst)

/-- `vaddrAtomicMemOperation`, with `dst`. -/
def vaddrAtomicMemOperation (startAddr : BitVec 64) (size : Nat) (op : AMOFunct)
    (src : BitVec 64) : Emu β (BitVec 63 × BitVec 64) := do
  assertThat (size = 4 ∨ size = 8) .amoSize
  let c ← getCore
  if c.dataBare then
    physAmo startAddr size op src
  else
    pagedAccess startAddr size (Exec.storeMisalign, 0) (Exec.storePgfault, 0)
      (writeRefusal (Exec.storePgfault, 0)) (fun paddr => physAmo paddr size op src)

/-- Reserve and load. The reservation is made before the load can fail. -/
def physLoadReserved (pa : Addr) (size : Nat) : Emu β (BitVec 63 × BitVec (8 * size)) := do
  doReserve pa size
  let (feedback, data) ← doLoad pa size
  return (if feedback = .success then Exec.ok else Exec.storeAccFault, data)

/-- `vaddrLoadReserved`. -/
def vaddrLoadReserved (beginAddr : BitVec 64) (size : Nat) :
    Emu β (BitVec 63 × BitVec (8 * size)) := do
  let c ← getCore
  if c.dataBare then
    physLoadReserved beginAddr size
  else
    pagedAccess beginAddr size (Exec.storeMisalign, 0) (Exec.storePgfault, 0)
      (readRefusal (Exec.storePgfault, 0) (Exec.storeAccFault, 0))
      (fun paddr => physLoadReserved paddr size)

/-- Check and store, with the code for a bus error and with `sc_fail`. -/
def physStoreConditional (fault : BitVec 63) (pa : Addr) (size : Nat)
    (data : BitVec (8 * size)) : Emu β (BitVec 63 × Bool) := do
  let checked ← doCheck pa size
  if !checked then
    return (Exec.ok, true)
  let feedback ← doStore pa size data
  return (if feedback = .success then Exec.ok else fault, false)

/-- `vaddrStoreConditional`, with `sc_fail`. -/
def vaddrStoreConditional (beginAddr : BitVec 64) (size : Nat) (data : BitVec (8 * size)) :
    Emu β (BitVec 63 × Bool) := do
  let c ← getCore
  if c.dataBare then
    physStoreConditional Exec.storeAccFault beginAddr size data
  else
    pagedAccess beginAddr size (Exec.storeMisalign, false) (Exec.storePgfault, false)
      (writeRefusal (Exec.storePgfault, false))
      (fun paddr => physStoreConditional Exec.storePgfault paddr size data)

end NextEmu.Simple
