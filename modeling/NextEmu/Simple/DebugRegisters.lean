import NextEmu.Simple.Debug
import NextEmu.Simple.RunInvariants

/-!
# The register writes of a debugger

An instruction and the boot code write a register through a guard that keeps `x0` out.
The write of all registers, which a debugger asks for, has no such guard: it stores its
first value into slot 0, and the instructions that follow read that value as `x0`.
-/

namespace NextEmu.Simple.DebugRegisters

open NextEmu.Lib.AbortState NextEmu.Sdk
open Translation

variable {β : Type}

/-- `setGPRByIndex`. -/
def setGPRByIndex (gprIndex : BitVec 5) (val : BitVec 64) : Emu β FuncReturnFeedback := do
  if gprIndex = 0 then
    return .memuOk
  modifyCore fun c => { c with gpr := fun r => if r = gprIndex then val else c.gpr r }
  return .memuOk

/-- `WriteAllRegister_CoreAPI`: the 32 registers in order, then the program counter. -/
def writeAllRegisterCoreAPI (regs : List (BitVec 64)) : Emu β FuncReturnFeedback := do
  if regs.length ≠ 33 then
    return .memuInvalidParam
  modifyCore fun c => { c with
    gpr := fun r => regs.getD r.toNat 0
    currentProgramCounter := regs.getD 32 0 }
  return .memuOk

/-- The first of 33 values, which is the one for `x0`, is zero. -/
def ZeroFirst (regs : List (BitVec 64)) : Prop := regs.length = 33 → regs.getD 0 0 = 0

instance (regs : List (BitVec 64)) : Decidable (ZeroFirst regs) :=
  inferInstanceAs (Decidable (_ → _))

theorem setGPRByIndex_zero (gprIndex : BitVec 5) (val : BitVec 64) (s : Machine β) :
    (final (setGPRByIndex gprIndex val) s).core.gpr 0 = s.core.gpr 0 := by
  unfold setGPRByIndex
  split
  · rfl
  · rename_i hindex
    have hother : ¬ (0 : BitVec 5) = gprIndex := fun h => hindex h.symm
    exact if_neg hother

theorem writeAllRegister_refused {regs : List (BitVec 64)} (h : regs.length ≠ 33)
    (s : Machine β) : writeAllRegisterCoreAPI regs s = .ok .memuInvalidParam s := by
  unfold writeAllRegisterCoreAPI
  rw [if_pos h]
  rfl

theorem writeAllRegister_gpr {regs : List (BitVec 64)} (h : regs.length = 33) (s : Machine β)
    (r : BitVec 5) :
    (final (writeAllRegisterCoreAPI regs) s).core.gpr r = regs.getD r.toNat 0 := by
  unfold writeAllRegisterCoreAPI
  rw [if_neg fun hne => hne h]
  rfl

/-- A debugger's write keeps `x0` zero exactly when it has zero for it. -/
theorem writeAllRegister_zero {s : Machine β} (hzero : s.core.gpr 0 = 0)
    (regs : List (BitVec 64)) :
    (final (writeAllRegisterCoreAPI regs) s).core.gpr 0 = 0 ↔ ZeroFirst regs := by
  unfold ZeroFirst
  by_cases hlen : regs.length = 33
  · rw [writeAllRegister_gpr hlen]
    exact ⟨fun h _ => h, fun h => h hlen⟩
  · unfold final
    rw [writeAllRegister_refused hlen]
    exact ⟨fun _ h => absurd h hlen, fun _ => hzero⟩

/-! ## Runs under a debugger -/

section Runs

variable [SlaveAtomicIOI β]

/-- The machines that a run from reset reaches in which a debugger writes registers between the
steps, every time with values that are `ok`. -/
inductive Debugged (ok : List (BitVec 64) → Prop) : Machine β → Prop
  | initial {s : Machine β} (h : s.Initial) : Debugged ok s
  | environment {s : Machine β} (h : Debugged ok s) (intStatus : IntStatus) (bus : β) :
      Debugged ok { s with core := { s.core with intStatus := intStatus }, bus := bus }
  | step {s t : Machine β} (h : Debugged ok s) (hstep : step { s with trace := [] } = .ok () t) :
      Debugged ok t
  | setGPR {s : Machine β} (h : Debugged ok s) (gprIndex : BitVec 5) (val : BitVec 64) :
      Debugged ok (final (setGPRByIndex gprIndex val) s)
  | writeAll {s : Machine β} (h : Debugged ok s) (regs : List (BitVec 64)) (hok : ok regs) :
      Debugged ok (final (writeAllRegisterCoreAPI regs) s)

/-- `x0` is zero in a run whose writes of all registers have zero for it, and the next such write
keeps it so exactly when it has too. -/
theorem zero_debugged (s : Machine β) (h : Debugged ZeroFirst s) :
    s.core.gpr 0 = 0 ∧ ∀ regs,
      (final (writeAllRegisterCoreAPI regs) s).core.gpr 0 = 0 ↔ ZeroFirst regs := by
  have hzero : s.core.gpr 0 = 0 := by
    induction h with
    | initial h =>
      obtain ⟨c, hc⟩ := h.core
      rw [hc]
      rfl
    | environment _ _ _ ih => exact ih
    | step _ hstep ih => exact (RunInvariants.step_zero hstep).trans ih
    | setGPR _ gprIndex val ih => exact (setGPRByIndex_zero gprIndex val _).trans ih
    | writeAll _ regs hok ih => exact (writeAllRegister_zero ih regs).mpr hok
  exact ⟨hzero, writeAllRegister_zero hzero⟩

end Runs

/-! ## A program that copies `x0` -/

def copyMachine : Machine (AddrBus Empty) :=
  Machine.start (RV64Core.reset { (default : RV64Core) with currentProgramCounter := 0x80000000 })
    -- addi x10, x0, 0
    (memoryBus fun a => (0x00000513#32).extractLsb' (8 * a) 8)

theorem copyMachine_initial : copyMachine.Initial := ⟨⟨_, rfl⟩, fun _ => rfl, rfl⟩

/-- The values that a debugger has read from the core and writes back with 1 for `x0`. -/
def oneFirst : List (BitVec 64) := 1 :: List.replicate 31 0 ++ [0x80000000]

/-- After such a write slot 0 holds 1, and the program copies it to `x10`. -/
theorem zero_lost :
    ¬ ∀ s : Machine (AddrBus Empty), Debugged (fun _ => True) s → s.core.gpr 0 = 0 := by
  intro hall
  have hone : (final (writeAllRegisterCoreAPI oneFirst) copyMachine).core.gpr 0 = 1 := by
    decide +kernel
  have hzero := hall _ (.writeAll (.initial copyMachine_initial) oneFirst trivial)
  rw [hone] at hzero
  cases hzero

example :
    (final step (final (writeAllRegisterCoreAPI oneFirst) copyMachine)).core.gpr 10 = 1 := by
  decide +kernel

/-- A write that clears every register. -/
theorem zero_debugged_cleared :
    (final (writeAllRegisterCoreAPI (List.replicate 33 0)) copyMachine).core.gpr 0 = 0 ∧
    ∀ regs, (final (writeAllRegisterCoreAPI regs)
      (final (writeAllRegisterCoreAPI (List.replicate 33 0)) copyMachine)).core.gpr 0 = 0 ↔
        ZeroFirst regs :=
  zero_debugged _ (.writeAll (.initial copyMachine_initial) _ (by decide))

end NextEmu.Simple.DebugRegisters
