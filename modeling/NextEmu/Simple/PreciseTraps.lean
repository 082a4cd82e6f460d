import NextEmu.Simple.Outcomes
import NextEmu.Simple.Translation

/-!
# Precise traps

A step that traps and returns has changed only what a trap is for: the status, the
trap registers of the destination mode, the mode and the PC, besides the counter
and the pending bits that every step samples. Memory is what any view of the bus
shows that loads, reservations, checks and failed stores leave alone; the main
memory of an `AddrBus` is one.
-/

namespace NextEmu.Simple.PreciseTraps

open NextEmu.Lib.AbortState NextEmu.Lib.BitField NextEmu.Sdk
open Outcomes

variable {β M : Type} [SlaveAtomicIOI β]

/-! ## Data memory -/

/-- A view of what is stored behind a bus. -/
structure DataView (mem : β → M) : Prop where
  load : ∀ b a n, mem (SlaveIOI.load b a n).2 = mem b
  failedStore : ∀ b a n x, (SlaveIOI.store b a n x).1 ≠ .success →
    mem (SlaveIOI.store b a n x).2 = mem b
  reserve : ∀ b a n hart, mem (SlaveAtomicIOI.reserve b a n hart) = mem b
  check : ∀ b a n hart, mem (SlaveAtomicIOI.check b a n hart).2 = mem b

theorem DataView.quiet {mem : β → M} (hv : DataView mem) {b c : β} (h : Quiet b c) :
    mem c = mem b := by
  induction h with
  | refl => rfl
  | load _ a n ih => rw [hv.load, ih]
  | failedStore _ a n x hf ih => rw [hv.failedStore _ a n x hf, ih]
  | reserve _ a n hart ih => rw [hv.reserve, ih]
  | check _ a n hart ih => rw [hv.check, ih]

/-- What is a function of main memory and its place: a store that reaches it succeeds. -/
theorem dataView_of {δ : Type} [SlaveIOI δ] {mem : AddrBus δ → M}
    (hmem : ∀ b c : AddrBus δ, c.mainMem = b.mainMem → c.memBeginAddr = b.memBeginAddr →
      c.memEndAddr = b.memEndAddr → mem c = mem b) : DataView mem where
  load b a n := by
    change mem (b.load a n).2 = mem b
    unfold AddrBus.load
    split
    · rfl
    · split <;> exact hmem _ _ rfl rfl rfl
  failedStore b a n x hf := by
    change (b.store a n x).1 ≠ .success at hf
    change mem (b.store a n x).2 = mem b
    obtain ⟨hmain, hbegin, hend, -⟩ := b.breakReservation_memory a (BitVec.ofNat 64 n)
    rw [← hmem _ _ hmain hbegin hend]
    unfold AddrBus.store AddrBus.storeRouted at hf ⊢
    split at hf
    · exact absurd rfl hf
    · rename_i hm
      rw [if_neg hm]
      split <;> exact hmem _ _ rfl rfl rfl
  reserve _ _ _ _ := hmem _ _ rfl rfl rfl
  check _ _ _ _ := hmem _ _ rfl rfl rfl

/-- The main memory of a bus. -/
theorem mainMem_view {δ : Type} [SlaveIOI δ] : DataView (fun b : AddrBus δ => b.mainMem) :=
  dataView_of fun _ _ hmain _ _ => hmain

/-! ## The frame of a trap -/

/-- `c'` is `c` after a trap to S mode: the fields named here are all that differ. -/
def TrappedToS (c c' : RV64Core) (cause : Cause) : Prop :=
  c' = { c with
    csrMCycleNum := c'.csrMCycleNum
    csrIntPending := c'.csrIntPending
    status := c'.status
    csrSExceptionPC := c.currentProgramCounter
    csrSupervisorCause := cause.val
    csrSupervisorTrapVal := c'.csrSupervisorTrapVal
    currentProgramCounter := trapPC c.csrSTrapVecBaseAddr cause.val
    nextPrivMode := .sMode
    -- not registers of the guest
    currentPrivMode := c'.currentPrivMode
    trapProgramCounter := c'.trapProgramCounter
    needTrap := c'.needTrap }

/-- The same for a trap to M mode. -/
def TrappedToM (c c' : RV64Core) (cause : Cause) : Prop :=
  c' = { c with
    csrMCycleNum := c'.csrMCycleNum
    csrIntPending := c'.csrIntPending
    status := c'.status
    csrMExceptionPC := c.currentProgramCounter
    csrMachineCause := cause.val
    csrMachineTrapVal := c'.csrMachineTrapVal
    currentProgramCounter := trapPC c.csrMTrapVecBaseAddr cause.val
    nextPrivMode := .mMode
    currentPrivMode := c'.currentPrivMode
    trapProgramCounter := c'.trapProgramCounter
    needTrap := c'.needTrap }

theorem trapEnd_frame (c : RV64Core) (cause : Cause) (tval : BitVec 64) :
    TrappedToS c (trapEnd (c.sampled.trapped cause tval)) cause ∨
      TrappedToM c (trapEnd (c.sampled.trapped cause tval)) cause := by
  unfold RV64Core.trapped
  dsimp only
  split
  · exact .inl rfl
  · exact .inr rfl

/-- A step that traps and returns keeps everything but the registers of its trap. -/
theorem precise_trap (mem : β → M) (hmem : DataView mem) (s t : Machine β)
    (h : step { s with trace := [] } = .ok () t) (cause : Cause) (tval : BitVec 64)
    (htrap : (cause, tval) ∈ traps t.trace) :
    mem t.bus = mem s.bus ∧
      (TrappedToS s.core t.core cause ∨ TrappedToM s.core t.core cause) := by
  have ho := wp_ok (step_outcome { s with trace := [] }) h
  rw [mem_traps] at htrap
  cases ho with
  | trapped cause' tval' core bus hlog =>
    obtain ⟨fetched, hlog⟩ := hlog
    have heq : cause = cause' := by
      rw [hlog] at htrap
      simp [log] at htrap
      exact htrap.1
    subst heq
    refine ⟨hmem.quiet bus, ?_⟩
    rw [core]
    exact trapEnd_frame s.core cause tval'
  | done inst c l effect core hlog =>
    rw [hlog] at htrap
    simp [log] at htrap

/-- An environment call of U mode, delegated to S mode, at the start of the memory. -/
def ecallMachine : Machine (AddrBus Empty) :=
  Machine.start { (default : RV64Core) with
    currentProgramCounter := 0x80000000, nextPrivMode := .uMode
    csrMExceptionDelegation := 0x100, csrSTrapVecBaseAddr := 0x80000100 }
    (Translation.memoryBus fun a => if a = 0 then 0x73 else 0)

theorem precise_trap_ecall :
    (final step ecallMachine).bus.mainMem = ecallMachine.bus.mainMem ∧
      (TrappedToS ecallMachine.core (final step ecallMachine).core
          (exception Exec.ecallFromUser) ∨
        TrappedToM ecallMachine.core (final step ecallMachine).core
          (exception Exec.ecallFromUser)) :=
  precise_trap (fun b => b.mainMem) mainMem_view ecallMachine _ (eq_final (by decide +kernel))
    (exception Exec.ecallFromUser) 0 (by decide +kernel)

end NextEmu.Simple.PreciseTraps
