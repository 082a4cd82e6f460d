import Mathlib.Order.Fin.Basic
import NextEmu.Sdk.AddrBus
import NextEmu.Simple.State

/-!
# The core local interruptor

`CLInt.h` of `rvcore_simple` and `rvcore_minicpu`, which are the same but for the namespace.
`memcpy` works on the bytes of the three arrays, and a copy that leaves one is a `Fault`. The
arithmetic on `nr_hart` is that of `unsigned int`, the one on addresses that of `uint64_t`.
`intContexts` holds the states that the registered pointers point to: every hart is registered,
since `tick` writes through each pointer.
-/

namespace NextEmu.Device

open NextEmu.Sdk NextEmu.Simple

namespace CLInt

/-- A copy from or to a place outside the array. -/
inductive Fault
  | outside (off size : Nat)
  deriving DecidableEq, Repr

section Words

variable {w n : Nat}

/-- The bytes of an array, `(char *) (&a)`. -/
def bytesOf (a : Vector (BitVec (8 * w)) n) (off : Nat) : BitVec 8 :=
  (a[off / w]?.getD 0).extractLsb' (8 * (off % w)) 8

/-- The array with these bytes. -/
def ofBytes (m : Nat → BitVec 8) : Vector (BitVec (8 * w)) n :=
  Vector.ofFn fun i => readBytes m (w * i) w

/-- `memcpy` out of an array. -/
def copyFrom (a : Vector (BitVec (8 * w)) n) (off size : Nat) : Except Fault (BitVec (8 * size)) :=
  if off + size ≤ w * n then .ok (readBytes (bytesOf a) off size) else .error (.outside off size)

/-- `memcpy` into an array. -/
def copyTo (a : Vector (BitVec (8 * w)) n) (off size : Nat) (buffer : BitVec (8 * size)) :
    Except Fault (Vector (BitVec (8 * w)) n) :=
  if off + size ≤ w * n then .ok (ofBytes (writeBytes (bytesOf a) off size buffer))
  else .error (.outside off size)

theorem bytesOf_ofBytes (m : Nat → BitVec 8) {off : Nat} (h : off < w * n) :
    bytesOf (ofBytes m : Vector (BitVec (8 * w)) n) off = m off := by
  have hw : 0 < w := Nat.pos_of_mul_pos_right (Nat.lt_of_le_of_lt (Nat.zero_le _) h)
  have hdiv : off / w < n := Nat.div_lt_of_lt_mul h
  have hmod : off % w < w := Nat.mod_lt _ hw
  unfold bytesOf ofBytes
  rw [Vector.getElem?_eq_getElem hdiv, Vector.getElem_ofFn, Option.getD_some,
    byte_readBytes hmod, Nat.div_add_mod]

end Words

end CLInt

structure CLInt (nrHart : Nat) where
  mtime : BitVec 64
  mtimecmp : Vector (BitVec 64) nrHart
  msip : Vector (BitVec 32) nrHart
  intContexts : Vector IntStatus nrHart

namespace CLInt

variable {nrHart : Nat}

/-- The constructor, and the harts that are registered then. -/
def init (intContexts : Vector IntStatus nrHart) : CLInt nrHart where
  mtime := 0
  mtimecmp := .replicate _ 0
  msip := .replicate _ 0
  intContexts := intContexts

/-- `4 * nr_hart`. -/
def msipEnd (nrHart : Nat) : Nat := 4 * nrHart % 2 ^ 32

/-- `0x4000 + 8 * nr_hart`. -/
def mtimecmpEnd (nrHart : Nat) : Nat := (0x4000 + 8 * nrHart) % 2 ^ 32

/-- `do_read`: the answer and the buffer. -/
def doRead (c : CLInt nrHart) (startAddr : BitVec 64) (size : Nat) (buffer : BitVec (8 * size)) :
    Except Fault (Bool × BitVec (8 * size)) := do
  let addr := startAddr.toNat
  let stop := (startAddr + BitVec.ofNat 64 size).toNat
  if addr ≥ 0x4000 then
    if addr ≥ 0xbff8 ∧ stop ≤ 0xc000 then
      return (true, ← copyFrom (w := 8) #v[c.mtime] (addr - 0xbff8) size)
    else if addr ≥ 0x4000 ∧ stop ≤ mtimecmpEnd nrHart then
      return (true, ← copyFrom (w := 8) c.mtimecmp (addr - 0x4000) size)
    else return (false, buffer)
  else
    if stop ≤ msipEnd nrHart then
      return (true, ← copyFrom (w := 4) c.msip addr size)
    else return (false, buffer)

/-- `do_write`. -/
def doWrite (c : CLInt nrHart) (startAddr : BitVec 64) (size : Nat) (buffer : BitVec (8 * size)) :
    Except Fault (Bool × CLInt nrHart) := do
  let addr := startAddr.toNat
  let stop := (startAddr + BitVec.ofNat 64 size).toNat
  if addr ≥ 0x4000 then
    if addr ≥ 0xbff8 ∧ stop ≤ 0xc000 then
      let mtime ← copyTo (w := 8) #v[c.mtime] (addr - 0xbff8) size buffer
      return (true, { c with mtime := mtime[0] })
    else if addr ≥ 0x4000 ∧ stop ≤ mtimecmpEnd nrHart then
      let mtimecmp ← copyTo (w := 8) c.mtimecmp (addr - 0x4000) size buffer
      return (true, { c with mtimecmp := mtimecmp })
    else return (false, c)
  else
    if stop ≤ msipEnd nrHart then
      let msip ← copyTo (w := 4) c.msip addr size buffer
      return (true, { c with msip := msip.map (· &&& 1) })
    else return (false, c)

/-- `m_s_irq`. -/
def mSIrq (c : CLInt nrHart) (hartId : Fin nrHart) : Bool := c.msip.get hartId &&& 1 != 0

/-- `m_t_irq`. -/
def mTIrq (c : CLInt nrHart) (hartId : Fin nrHart) : Bool := c.mtimecmp.get hartId < c.mtime

/-- One turn of the loop of `tick`. -/
def drive (c : CLInt nrHart) (i : Fin nrHart) : CLInt nrHart :=
  let status := { c.intContexts.get i with msip := c.mSIrq i, mtip := c.mTIrq i }
  { c with intContexts := c.intContexts.set i status i.isLt }

/-- `tick`. -/
def tick (c : CLInt nrHart) : CLInt nrHart :=
  let c := (List.finRange nrHart).foldl drive c
  { c with mtime := c.mtime + 1 }

theorem foldl_drive (is : List (Fin nrHart)) (c : CLInt nrHart) :
    ∃ contexts, is.foldl drive c = { c with intContexts := contexts } := by
  induction is generalizing c with
  | nil => exact ⟨c.intContexts, rfl⟩
  | cons i is ih => exact ih (c.drive i)

theorem foldl_drive_mtip (is : List (Fin nrHart)) (c : CLInt nrHart) (i : Fin nrHart) :
    ((is.foldl drive c).intContexts.get i).mtip =
      if i ∈ is then c.mTIrq i else (c.intContexts.get i).mtip := by
  induction is generalizing c with
  | nil => rfl
  | cons j is ih =>
    rw [List.foldl_cons, ih (c.drive j)]
    by_cases hrest : i ∈ is
    · rw [if_pos hrest, if_pos (List.mem_cons_of_mem j hrest)]
      rfl
    · rw [if_neg hrest]
      show ((c.intContexts.set j _)[i.val]).mtip = _
      by_cases heq : i = j
      · subst heq
        rw [if_pos List.mem_cons_self, Vector.getElem_set_self]
      · have hne : (j : Nat) ≠ i := fun h => heq (Fin.ext h.symm)
        have hout : i ∉ j :: is := fun hmem => (List.mem_cons.mp hmem).elim heq hrest
        rw [if_neg hout, Vector.getElem_set_ne _ _ hne]
        rfl

/-- A tick drives the lines and advances the time. -/
theorem tick_eq (c : CLInt nrHart) :
    ∃ contexts, c.tick = { c with mtime := c.mtime + 1, intContexts := contexts } := by
  obtain ⟨contexts, heq⟩ := foldl_drive (List.finRange nrHart) c
  unfold tick
  rw [heq]
  exact ⟨contexts, rfl⟩

/-- The timer line of a hart compares the time before the tick. -/
theorem tick_mtip (c : CLInt nrHart) (i : Fin nrHart) :
    (c.tick.intContexts.get i).mtip = c.mTIrq i := by
  have hloop := foldl_drive_mtip (List.finRange nrHart) c i
  rw [if_pos (List.mem_finRange i)] at hloop
  exact hloop

/-- `load`. -/
def load (c : CLInt nrHart) (beginAddr : Addr) (len : Nat) (buffer : BitVec (8 * len)) :
    Except Fault (Feedback × BitVec (8 * len)) := do
  let (ok, buffer) ← c.doRead (beginAddr % 0x10000) len buffer
  return (if ok then .success else .outOfRange, buffer)

/-- `store`. -/
def store (c : CLInt nrHart) (beginAddr : Addr) (len : Nat) (buffer : BitVec (8 * len)) :
    Except Fault (Feedback × CLInt nrHart) := do
  let (ok, c) ← c.doWrite (beginAddr % 0x10000) len buffer
  return (if ok then .success else .outOfRange, c)

/-- What the bus and the clock do to the device. -/
inductive Op
  | load (beginAddr : Addr) (len : Nat)
  | store (beginAddr : Addr) (len : Nat) (buffer : BitVec (8 * len))
  | tick

/-- The device behind an operation. -/
def apply (c : CLInt nrHart) : Op → Except Fault (CLInt nrHart)
  | .load beginAddr len => do
    let _ ← c.load beginAddr len 0
    return c
  | .store beginAddr len buffer => do
    let (_, c) ← c.store beginAddr len buffer
    return c
  | .tick => return c.tick

/-- The device behind some operations. -/
def run (c : CLInt nrHart) : List Op → Except Fault (CLInt nrHart)
  | [] => return c
  | op :: ops => do
    let c ← c.apply op
    c.run ops

end CLInt

end NextEmu.Device
