import NextEmu.FullSys.System
import NextEmu.Simple.GuestAborts

/-!
# The interrupts of the full system

The lines that the devices drive in the ticks of a turn are sampled by the step of the same turn.
A core that waits for one interrupt alone is in its handler at the end of a turn when the line was
up in that turn, and is not interrupted otherwise.
-/

namespace NextEmu.FullSys

open NextEmu.Sdk NextEmu.Simple
open NextEmu.Lib.AbortState NextEmu.Lib.BitField
open Interrupts GuestAborts Outcomes

/-- The line behind the pending bit of an interrupt; the others are set by software. -/
def driven (lines : IntStatus) : IntType → Option Bool
  | .mExt => some lines.meip
  | .mSw => some lines.msip
  | .mTimer => some lines.mtip
  | .sExt => some lines.seip
  | .sSw | .sTimer => none

/-- Interrupt `i` is the only one that the core has enabled, and nothing keeps it from M mode. -/
structure Awaits (c : RV64Core) (i : IntType) : Prop where
  enabled : c.csrIntEnable = BitVec.twoPow 64 i.code
  undelegated : c.csrMIntDelegation.getLsbD i.code = false
  unmasked : c.nextPrivMode = .uMode ∨ c.nextPrivMode = .sMode ∨
    c.nextPrivMode = .mMode ∧ c.status.getLsbD MStatus.mie = true

/-- The core has gone from `c` to the handler of interrupt `i`. -/
structure Entered (c c' : RV64Core) (i : IntType) : Prop where
  mode : c'.nextPrivMode = .mMode
  cause : c'.csrMachineCause = (intCause (some i)).val
  epc : c'.csrMExceptionPC = c.currentProgramCounter
  pc : c'.currentProgramCounter = trapPC c.csrMTrapVecBaseAddr (intCause (some i)).val
  gpr : c'.gpr = c.gpr

section Core

variable {c : RV64Core} {i : IntType} {up : Bool}

theorem pending_driven (h : driven c.intStatus i = some up) :
    c.sampled.csrIntPending.getLsbD i.code = up := by
  cases i <;> cases h
  all_goals
    simp only [RV64Core.sampled, IntType.code, getLsbD_setBit]
    simp

theorem highest_twoPow (i : IntType) : highest (BitVec.twoPow 64 i.code) = some i := by
  cases i <;> decide

/-- Of what is pending, the core that waits looks at one bit. -/
theorem Awaits.intBits (h : Awaits c i) (hline : driven c.intStatus i = some up) :
    c.sampled.intBits = if up then BitVec.twoPow 64 i.code else 0 := by
  have henable : c.sampled.csrIntEnable = BitVec.twoPow 64 i.code := h.enabled
  unfold RV64Core.intBits
  rw [henable, BitVec.and_twoPow, pending_driven hline]
  rfl

theorem Awaits.quiet (h : Awaits c i) (hline : driven c.intStatus i = some false) :
    c.sampled.intToRaise = none := by
  have hzero : c.sampled.intBits = 0 := h.intBits hline
  unfold RV64Core.intToRaise
  rw [hzero]
  exact if_pos (by decide)

theorem Awaits.raises (h : Awaits c i) (hline : driven c.intStatus i = some true) :
    c.sampled.intToRaise = some (BitVec.twoPow 64 i.code) := by
  have hbits : c.sampled.intBits = BitVec.twoPow 64 i.code := h.intBits hline
  have hfree : BitVec.twoPow 64 i.code &&& c.sampled.csrMIntDelegation = 0 := by
    have hclear : c.sampled.csrMIntDelegation.getLsbD i.code = false := h.undelegated
    rw [BitVec.and_comm, BitVec.and_twoPow, hclear]
    rfl
  have hkept : BitVec.twoPow 64 i.code &&& ~~~ c.sampled.csrMIntDelegation =
      BitVec.twoPow 64 i.code := by
    have hclear : c.sampled.csrMIntDelegation.getLsbD i.code = false := h.undelegated
    rw [BitVec.and_comm, BitVec.and_twoPow, BitVec.getLsbD_not, hclear]
    simp [code_lt i]
  have hhighest : highest c.sampled.intBits = some i := by
    rw [hbits]
    exact highest_twoPow i
  rcases h.unmasked with hmode | hmode | ⟨hmode, hmie⟩
  · rw [intToRaise_lower (.inl hmode) hhighest, if_neg, hbits]
    rintro ⟨-, -, hne⟩
    exact hne (hbits ▸ hfree)
  · rw [intToRaise_lower (.inr hmode) hhighest, if_neg, hbits]
    rintro ⟨-, -, hne⟩
    exact hne (hbits ▸ hfree)
  · have hdue : highest (c.sampled.intBits &&& ~~~ c.sampled.csrMIntDelegation) = some i := by
      rw [hbits, hkept]
      exact highest_twoPow i
    have hsampled : c.sampled.currentPrivMode = .mMode := hmode
    rw [intToRaise_machine hsampled hmie hdue, hbits, hkept]

/-- The core behind the trap. -/
theorem Awaits.entered (h : Awaits c i) :
    Entered c (trapEnd (c.sampled.trapped (intCause (some i)) 0)) i := by
  have hstay : ({ c.sampled with needTrap := true } : RV64Core).delegated (intCause (some i)) =
      false := by
    rw [delegated_interrupt]
    have hclear : c.sampled.csrMIntDelegation.getLsbD i.code = false := h.undelegated
    simp [hclear]
  unfold RV64Core.trapped
  simp only [hstay, Bool.false_eq_true, if_false]
  exact ⟨rfl, rfl, rfl, rfl, rfl⟩

/-- A step of a core that waits, with the line up. -/
theorem Awaits.step {s t : Machine (AddrBus Dev)} (h : Awaits s.core i)
    (hline : driven s.core.intStatus i = some true) (hstep : step s = .ok () t) :
    Entered s.core t.core i := by
  rw [step_interrupted (h.raises hline) (highest_twoPow i)] at hstep
  have hend := wp_ok (endStep_legal rfl _) hstep
  rw [hend]
  dsimp only
  rw [trapEnd_eq (trapped_needTrap _ _ _)]
  exact h.entered

end Core

/-! ## A turn -/

/-- The step of the turn from `s` takes no interrupt. -/
def Undisturbed (s : Machine (AddrBus Dev)) : Prop :=
  ∃ m, ticks s = some m ∧ m.core.sampled.intToRaise = none

/-- A turn of a core that waits for one interrupt: what the ticks make of its line decides. -/
theorem turn_awaits {s t : Machine (AddrBus Dev)} {c : ClintPort} {p : PlicPort} {u : UartPort}
    {i : IntType} {up : Bool} (h : Wired s.bus (.clint c) (.plic p) (.uart u))
    (hawaits : Awaits s.core i) (hline : driven (lines c.clint.tick p.plic.tick) i = some up)
    (hturn : turn s = some t) : if up then Entered s.core t.core i else Undisturbed s := by
  obtain ⟨m, hm, hstep, -⟩ := turn_some hturn
  obtain ⟨-, -, -, -, -, hcore, -⟩ := ticks_eq h hm
  have hwaits : Awaits m.core i := by
    rw [hcore]
    exact ⟨hawaits.enabled, hawaits.undelegated, hawaits.unmasked⟩
  have hlines : driven m.core.intStatus i = some up := by
    rw [hcore]
    exact hline
  cases up with
  | false => exact ⟨m, hm, hwaits.quiet hlines⟩
  | true =>
    have hentered := Awaits.step (s := { m with trace := [] }) hwaits hlines hstep
    rw [hcore] at hentered
    exact ⟨hentered.mode, hentered.cause, hentered.epc, hentered.pc, hentered.gpr⟩

end NextEmu.FullSys
