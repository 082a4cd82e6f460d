import NextEmu.Device.Mem
import NextEmu.Simple.Sv39

/-!
# The memory access of a debugger

The two functions of `rv64_debug.cpp` that reach the bus. What the core loads from and stores to is
its MMU. Where that does not translate, it passes the address and the size on as they are, so
that a request of any length is one access of the bus.
-/

namespace NextEmu.Simple

open NextEmu.Device NextEmu.Lib.AbortState NextEmu.Sdk

/-- The codes of `FuncReturnFeedback_e` that the core returns to a debugger. -/
inductive FuncReturnFeedback
  | memuOk
  | memuInvalidParam
  | memuUnknown
  deriving DecidableEq, Repr

variable {β : Type} [SlaveAtomicIOI β]

/-- `MemRead_CoreDebugAPI`. -/
def memReadCoreDebugAPI (startAddr : Addr) (size : Nat) :
    Emu β (FuncReturnFeedback × BitVec (8 * size)) := do
  let (feedback, buffer) ← vaddrReadBufferMMUAPI startAddr size
  return (if feedback = .accessOk then .memuOk else .memuUnknown, buffer)

/-- `MemWrite_CoreDebugAPI`. -/
def memWriteCoreDebugAPI (startAddr : Addr) (size : Nat) (buffer : BitVec (8 * size)) :
    Emu β FuncReturnFeedback := do
  let feedback ← vaddrWriteBufferMMUAPI startAddr size buffer
  return if feedback = .accessOk then .memuOk else .memuUnknown

/-! A request that touches main memory stays in it, unless it ends past its end. -/

section Requests

variable {δ : Type} [SlaveIOI δ] {s : Machine (AddrBus δ)} {bus : AddrBus δ} {b a : Addr}
  {n : BitVec 64} {m : Nat → BitVec 8} {l : Nat}

/-- Without translation a request is one access of the bus. -/
theorem memRead_bare (hbare : s.core.dataBare = true) :
    memReadCoreDebugAPI a l s = .ok
      (if (SlaveIOI.load s.bus a l).1.1 = .success then .memuOk else .memuUnknown,
        (SlaveIOI.load s.bus a l).1.2)
      { s with bus := (SlaveIOI.load s.bus a l).2, trace := .load a l :: s.trace } := by
  have hread : vaddrReadBufferMMUAPI a l s = physRead a l s :=
    (bind_of_ok (rfl : getCore s = .ok s.core s)).trans (congrFun (if_pos hbare) s)
  unfold memReadCoreDebugAPI
  rw [bind_of_ok (hread.trans rfl)]
  by_cases h : (SlaveIOI.load s.bus a l).1.1 = .success
  · rw [if_pos h, if_pos h]
    rfl
  · rw [if_neg h, if_neg h]
    rfl

theorem memWrite_bare (hbare : s.core.dataBare = true) (x : BitVec (8 * l)) :
    (final (memWriteCoreDebugAPI a l x) s).bus = (SlaveIOI.store s.bus a l x).2 := by
  have hwrite : vaddrWriteBufferMMUAPI a l x s = physWrite .accessOk .accessFault a l x s :=
    (bind_of_ok (rfl : getCore s = .ok s.core s)).trans (congrFun (if_pos hbare) s)
  unfold memWriteCoreDebugAPI
  rw [final_congr (bind_of_ok (hwrite.trans rfl))]
  rfl

theorem memRead_contained (hbare : s.core.dataBare = true) (hbus : s.bus = bus.setMem b n m)
    (hl : 1 ≤ l) (hend : ¬ PastEnd b n a l) (hout : ¬ Inside b n a l) (m' : Nat → BitVec 8) :
    ∃ r t t', memReadCoreDebugAPI a l s = .ok r t ∧
      memReadCoreDebugAPI a l { s with bus := bus.setMem b n m' } = .ok r t' := by
  have hcontained := (contained_iff bus b n m a hl).mpr hend
  have hsame : (SlaveIOI.load s.bus a l).1 = (SlaveIOI.load (bus.setMem b n m') a l).1 := by
    rw [hbus]
    exact Classical.byContradiction fun hne => hout (hcontained.load ⟨m, m', hne⟩)
  have hbare' : ({ s with bus := bus.setMem b n m' } : Machine (AddrBus δ)).core.dataBare = true :=
    hbare
  have hread := memRead_bare (a := a) (l := l) hbare'
  rw [← hsame] at hread
  exact ⟨_, _, _, memRead_bare hbare, hread⟩

theorem memWrite_contained (hbare : s.core.dataBare = true) (hbus : s.bus = bus.setMem b n m)
    (hl : 1 ≤ l) (hend : ¬ PastEnd b n a l) (hout : ¬ Inside b n a l) (x : BitVec (8 * l)) :
    (final (memWriteCoreDebugAPI a l x) s).bus.mainMem = some m := by
  have hcontained := (contained_iff bus b n m a hl).mpr hend
  have hkept := (hcontained.storeElsewhere x fun ht => hout (hcontained.store x ht)).1
  rw [memWrite_bare hbare, hbus]
  exact hkept

end Requests

end NextEmu.Simple
