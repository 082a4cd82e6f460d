import NextEmu.Sdk.Interface

/-!
# The interrupt controller

`PLIC.h` of `rvcore_simple` and `rvcore_minicpu`, which are the same file. Arrays are
vectors of the declared length and an access outside one is a `Fault`, behind which
the call has no result. `return false` of the source is the code of `FB_SUCCESS`; it
leaves the buffer of a load alone. `intContexts` holds the Booleans that the
registered pointers point to.
-/

namespace NextEmu.Device

open NextEmu.Sdk

namespace PLIC

/-- Where a call breaks off: `assert(size == 4)`, or an index outside an array. -/
inductive Fault
  | size
  | priority (i : Nat)
  | pending (i : Nat)
  | enable (i j : Nat)
  | threshold (i : Nat)
  | claim (i : Nat)
  | claimed (i : Nat)
  deriving DecidableEq, Repr

/-- `(nr_source + 1 + 31) / 32`. -/
def words (nrSource : Nat) : Nat := (nrSource + 1 + 31) / 32

def readAt {α : Type} {n : Nat} (a : Vector α n) (i : Nat) (f : Fault) : Except Fault α :=
  if h : i < n then .ok a[i] else .error f

def writeAt {α : Type} {n : Nat} (a : Vector α n) (i : Nat) (x : α) (f : Fault) :
    Except Fault (Vector α n) :=
  if h : i < n then .ok (a.set i x h) else .error f

/-- `1u << (id % 32)`, the bit of an id in its word. -/
def idBit (id : BitVec 32) : BitVec 32 := 1#32 <<< (id.toNat % 32)

/-- The word of an id. -/
def idWord (id : BitVec 32) : Nat := id.toNat / 32

/-- `(v[i / 32] >> (i % 32)) & 1`, for an `i` that `v` has a word for. -/
def bitOf {n : Nat} (v : Vector (BitVec 32) n) (i : Nat) : Bool :=
  (v[i / 32]?.getD 0).getLsbD (i % 32)

end PLIC

open PLIC in
/-- `PLIC<nr_source, nr_context>`. Source 0 is reserved. -/
structure PLIC (nrSource nrContext : Nat) where
  priority : Vector (BitVec 32) (nrSource + 1)
  pending : Vector (BitVec 32) (words nrSource)
  enable : Vector (Vector (BitVec 32) (words nrSource)) nrContext
  threshold : Vector (BitVec 32) nrContext
  claim : Vector (BitVec 32) nrContext
  claimed : Vector (BitVec 32) (words nrSource)
  intContexts : Vector Bool nrContext

namespace PLIC

variable {nrSource nrContext : Nat}

/-- The constructor. -/
def init (nrSource nrContext : Nat) : PLIC nrSource nrContext where
  priority := .replicate _ 0
  pending := .replicate _ 0
  enable := .replicate _ (.replicate _ 0)
  threshold := .replicate _ 0
  claim := .replicate _ 0
  claimed := .replicate _ 0
  intContexts := .replicate _ false

/-- `setInt`. -/
def setInt (p : PLIC nrSource nrContext) (sourceId : BitVec 32) (fired : Bool) :
    Except Fault (PLIC nrSource nrContext) := do
  if fired then
    let w ← readAt p.pending (idWord sourceId) (.pending (idWord sourceId))
    let pending ← writeAt p.pending (idWord sourceId) (w ||| idBit sourceId)
      (.pending (idWord sourceId))
    return { p with pending := pending }
  else return p

/-- The condition of `get_int` on one source. -/
def ready (p : PLIC nrSource nrContext) (contextId : Fin nrContext) (i : Nat) : Bool :=
  p.threshold.get contextId ≤ p.priority[i]?.getD 0 && bitOf p.pending i &&
    bitOf (p.enable.get contextId) i && !bitOf p.claimed i

/-- One turn of the loop of `get_int`, on `max_priority` and `max_priority_int`. -/
def arbitrate (p : PLIC nrSource nrContext) (contextId : Fin nrContext)
    (best : BitVec 32 × Nat) (i : Nat) : BitVec 32 × Nat :=
  if p.ready contextId i then
    if best.1 < p.priority[i]?.getD 0 then (p.priority[i]?.getD 0, i) else best
  else best

/-- `get_int`. -/
def getInt (p : PLIC nrSource nrContext) (contextId : Fin nrContext) :
    Bool × PLIC nrSource nrContext :=
  let maxPriorityInt := ((List.range' 1 nrSource).foldl (p.arbitrate contextId) (0, 0)).2
  let v := if maxPriorityInt ≠ 0 then BitVec.ofNat 32 maxPriorityInt else 0
  (v != 0, { p with claim := p.claim.set contextId v })

/-- `tick`: the line of every context. -/
def tick (p : PLIC nrSource nrContext) : PLIC nrSource nrContext :=
  (List.finRange nrContext).foldl (fun p i =>
    let r := p.getInt i
    { r.2 with intContexts := r.2.intContexts.set i r.1 }) p

/-- `load`. The answer has no data where the source does not write the buffer. -/
def load (p : PLIC nrSource nrContext) (startAddr size : BitVec 64) :
    Except Fault ((Feedback × Option (BitVec 32)) × PLIC nrSource nrContext) := do
  let startAddr := startAddr % 0x4000000
  let addr := startAddr.toNat
  let stop := (startAddr + size).toNat
  if size ≠ 4 then throw .size
  if stop ≤ 0x1000 then
    if addr = 0 then return ((.success, none), p)
    if addr > 4 * nrSource ∨ stop > 4 * (nrSource + 1) then return ((.success, none), p)
    let v ← readAt p.priority (addr / 4) (.priority (addr / 4))
    return ((.success, some v), p)
  else if stop ≤ 0x1080 then
    let idx := (startAddr - 0x1000).toNat / 4
    if idx > nrSource then return ((.success, none), p)
    let v ← readAt p.pending idx (.pending idx)
    return ((.success, some v), p)
  else if stop ≤ 0x2000 then
    return ((.outOfRange, none), p)
  else if stop ≤ 0x200000 then
    let contextId := (startAddr - 0x2000).toNat / 0x80
    let pos := addr % 0x80
    if contextId ≥ nrContext then return ((.success, none), p)
    if pos > nrSource then return ((.success, none), p)
    let row ← readAt p.enable contextId (.enable contextId pos)
    let v ← readAt row pos (.enable contextId pos)
    return ((.success, some v), p)
  else
    let contextId := (startAddr - 0x200000).toNat / 0x1000
    if contextId > nrContext then return ((.success, none), p)
    let offset := addr % 0x1000
    if offset = 0 then
      let v ← readAt p.threshold contextId (.threshold contextId)
      return ((.success, some v), p)
    else if offset = 4 then
      let v ← readAt p.claim contextId (.claim contextId)
      let w ← readAt p.claimed (idWord v) (.claimed (idWord v))
      let claimed ← writeAt p.claimed (idWord v) (w ||| idBit v) (.claimed (idWord v))
      return ((.success, some v), { p with claimed := claimed })
    else return ((.outOfRange, none), p)

/-- `store` of the word that the buffer starts with. -/
def store (p : PLIC nrSource nrContext) (startAddr size : BitVec 64) (v : BitVec 32) :
    Except Fault (Feedback × PLIC nrSource nrContext) := do
  let startAddr := startAddr % 0x4000000
  let addr := startAddr.toNat
  let stop := (startAddr + size).toNat
  if stop ≤ 0x1000 then
    if addr = 0 then return (.success, p)
    if addr > 4 * nrSource ∨ stop > 4 * (nrSource + 1) then return (.success, p)
    let priority ← writeAt p.priority (addr / 4) v (.priority (addr / 4))
    return (.success, { p with priority := priority })
  else if stop ≤ 0x1080 then
    return (.success, p)
  else if stop ≤ 0x2000 then
    return (.outOfRange, p)
  else if stop ≤ 0x200000 then
    let contextId := (startAddr - 0x2000).toNat / 0x80
    let pos := addr % 0x80
    if contextId ≥ nrContext then return (.success, p)
    if pos > nrSource then return (.success, p)
    let row ← readAt p.enable contextId (.enable contextId pos)
    let row ← writeAt row pos v (.enable contextId pos)
    let enable ← writeAt p.enable contextId row (.enable contextId pos)
    return (.success, { p with enable := enable })
  else
    let contextId := (startAddr - 0x200000).toNat / 0x1000
    if contextId > nrContext then return (.success, p)
    let offset := addr % 0x1000
    if offset = 0 then
      let threshold ← writeAt p.threshold contextId v (.threshold contextId)
      return (.success, { p with threshold := threshold })
    else if offset = 4 then
      let w ← readAt p.claimed (idWord v) (.claimed (idWord v))
      let claimed ← writeAt p.claimed (idWord v) (w &&& ~~~ idBit v) (.claimed (idWord v))
      let u ← readAt p.pending (idWord v) (.pending (idWord v))
      let pending ← writeAt p.pending (idWord v) (u &&& ~~~ idBit v) (.pending (idWord v))
      return (.success, { p with claimed := claimed, pending := pending })
    else return (.outOfRange, p)

end PLIC

end NextEmu.Device
