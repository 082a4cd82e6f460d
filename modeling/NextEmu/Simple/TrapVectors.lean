import NextEmu.Simple.PreciseTraps

/-!
# The address of the trap handler

A trap vector holds the address of a handler in its upper bits and a mode in the two
low ones. Mode 1 is the vectored one, in which an interrupt goes to the entry of its
cause behind the base, and an exception to the base itself. `raiseTrap` adds four
times the cause in mode 1 without a look at the interrupt flag.
-/

namespace NextEmu.Simple.TrapVectors

open NextEmu.Lib.AbortState NextEmu.Lib.BitField NextEmu.Sdk
open Outcomes PreciseTraps Translation

/-- The trap vector of the mode that a trap goes to. -/
def vectorOf (c : RV64Core) (d : PrivMode) : BitVec 64 :=
  if d = .mMode then c.csrMTrapVecBaseAddr else c.csrSTrapVecBaseAddr

/-- The handler that a trap is due: the base, and behind it the entry of an interrupt. -/
def dueHandler (tvec : BitVec 64) (cause : Cause) : BitVec 64 :=
  (tvec &&& ~~~ 3) +
    (if cause.interrupt ∧ TrapVector.mode tvec = 1 then 4 * cause.cause.setWidth 64 else 0)

/-- Direct mode, an interrupt, or the one exception whose entry is the base. -/
def Vectored (tvec : BitVec 64) (cause : Cause) : Prop :=
  cause.interrupt = true ∨ TrapVector.mode tvec = 0 ∨ cause.cause.setWidth 62 = 0

theorem base_eq (tvec : BitVec 64) :
    (TrapVector.base tvec).setWidth 64 <<< 2 = tvec &&& ~~~ 3 := by
  refine BitVec.eq_of_getLsbD_eq fun i hi => ?_
  have hmask : (3 : BitVec 64).getLsbD i = decide (i < 2) :=
    (congrArg (·.getLsbD i) (by decide : (3 : BitVec 64) = 1#64 <<< 2 - 1)).trans
      ((getLsbD_lowMask 2 i).trans (by simp [hi]))
  simp only [TrapVector.base, BitVec.getLsbD_shiftLeft, BitVec.getLsbD_setWidth,
    BitVec.getLsbD_extractLsb', BitVec.getLsbD_and, BitVec.getLsbD_not, hmask, hi]
  by_cases h2 : i < 2
  · simp [h2]
  · have hsum : 2 + (i - 2) = i := by omega
    have hlow : i - 2 < 64 := by omega
    have hwidth : i - 2 < 62 := by omega
    simp [h2, hsum, hlow, hwidth]

theorem val_cause (cause : Cause) : cause.val.setWidth 63 = cause.cause := by
  refine BitVec.eq_of_getLsbD_eq fun i hi => ?_
  simp only [Cause.val, BitVec.getLsbD_setWidth, BitVec.getLsbD_append, hi, decide_true,
    Bool.true_and, if_true]

/-- Four times a cause is zero when its low 62 bits are. -/
theorem entry_zero_iff (code : BitVec 63) :
    code.setWidth 64 * 4 = 0 ↔ code.setWidth 62 = 0 := by
  have hlt := code.isLt
  rw [← BitVec.toNat_inj, ← BitVec.toNat_inj, BitVec.toNat_mul, BitVec.toNat_setWidth,
    BitVec.toNat_setWidth]
  have h4 : (4 : BitVec 64).toNat = 4 := rfl
  have h0 : (0 : BitVec 64).toNat = 0 := rfl
  have h0' : (0 : BitVec 62).toNat = 0 := rfl
  rw [h4, h0, h0']
  omega

/-- What `raiseTrap` computes is due exactly in these cases. -/
theorem trapPC_due (tvec : BitVec 64) (cause : Cause)
    (hmode : TrapVector.mode tvec = 0 ∨ TrapVector.mode tvec = 1) :
    trapPC tvec cause.val = dueHandler tvec cause ↔ Vectored tvec cause := by
  unfold trapPC dueHandler Vectored
  rw [base_eq, val_cause]
  rcases hmode with hmode | hmode
  · simp [hmode]
  · cases hint : cause.interrupt with
    | true => simp [hmode, BitVec.mul_comm]
    | false => simpa [hmode] using entry_zero_iff cause.cause

/-! ## The handler of a trap -/

section Traps

variable {β : Type} [SlaveAtomicIOI β]

theorem trapped_handler (c : RV64Core) (cause : Cause) (tval : BitVec 64) :
    (c.trapped cause tval).trapProgramCounter =
      trapPC (vectorOf c (c.trapped cause tval).nextPrivMode) cause.val := by
  unfold RV64Core.trapped
  dsimp only
  split <;> rfl

/-- A step that traps goes on at the handler of its trap. -/
theorem step_handler {s t : Machine β} {cause : Cause} {tval : BitVec 64}
    (h : step { s with trace := [] } = .ok () t) (htrap : (cause, tval) ∈ traps t.trace) :
    t.core.currentProgramCounter = trapPC (vectorOf s.core t.core.nextPrivMode) cause.val := by
  have hview : DataView (fun _ : β => ()) :=
    { load := fun _ _ _ => rfl, failedStore := fun _ _ _ _ _ => rfl
      reserve := fun _ _ _ _ => rfl, check := fun _ _ _ _ => rfl }
  rcases (precise_trap _ hview s t h cause tval htrap).2 with hs | hm
  · rw [hs]
    rfl
  · rw [hm]
    rfl

/-- The handler that `raiseTrap` computes, and the PC after a step that traps, are the one that is
due exactly for an interrupt, in direct mode, or for a cause whose entry is the base. -/
theorem trap_vectored :
    (∀ (c : RV64Core) (cause : Cause) (tval : BitVec 64) (d : PrivMode),
      (c.trapped cause tval).nextPrivMode = d →
      TrapVector.mode (vectorOf c d) = 0 ∨ TrapVector.mode (vectorOf c d) = 1 →
      ((c.trapped cause tval).trapProgramCounter = dueHandler (vectorOf c d) cause ↔
        Vectored (vectorOf c d) cause)) ∧
    (∀ s t : Machine β, step { s with trace := [] } = .ok () t →
      ∀ (cause : Cause) (tval : BitVec 64) (d : PrivMode), (cause, tval) ∈ traps t.trace →
      t.core.nextPrivMode = d →
      TrapVector.mode (vectorOf s.core d) = 0 ∨ TrapVector.mode (vectorOf s.core d) = 1 →
      (t.core.currentProgramCounter = dueHandler (vectorOf s.core d) cause ↔
        Vectored (vectorOf s.core d) cause)) := by
  constructor
  · rintro c cause tval d rfl hmode
    rw [trapped_handler]
    exact trapPC_due _ cause hmode
  · rintro s t h cause tval d htrap rfl hmode
    rw [step_handler h htrap]
    exact trapPC_due _ cause hmode

end Traps

/-- The environment call of U mode, delegated to S mode, whose vector is in mode 1. -/
def vectoredCall : Machine (AddrBus Empty) :=
  { ecallMachine with
    core := { ecallMachine.core with csrSTrapVecBaseAddr := 0x80000101 } }

/-- It goes to the eighth entry of the table. -/
theorem call_misled :
    ¬ ∀ s t : Machine (AddrBus Empty), step { s with trace := [] } = .ok () t →
      ∀ (cause : Cause) (tval : BitVec 64) (d : PrivMode), (cause, tval) ∈ traps t.trace →
      t.core.nextPrivMode = d →
      TrapVector.mode (vectorOf s.core d) = 0 ∨ TrapVector.mode (vectorOf s.core d) = 1 →
      t.core.currentProgramCounter = dueHandler (vectorOf s.core d) cause := by
  intro hall
  have hdue := hall vectoredCall (final step vectoredCall) (eq_final (by decide +kernel))
    (exception Exec.ecallFromUser) 0 .sMode (by decide +kernel) (by decide +kernel)
    (.inr (by decide +kernel))
  have hpc : (final step vectoredCall).core.currentProgramCounter = 0x80000120 := by
    decide +kernel
  rw [hpc] at hdue
  exact absurd hdue (by decide +kernel)

/-- In direct mode it goes to the base. -/
theorem trap_vectored_direct :
    (final step ecallMachine).core.currentProgramCounter = 0x80000100 :=
  (((trap_vectored (β := AddrBus Empty)).2 ecallMachine _ (eq_final (by decide +kernel))
    (exception Exec.ecallFromUser) 0 .sMode (by decide +kernel) (by decide +kernel)
    (.inl (by decide +kernel))).mpr (.inr (.inl (by decide +kernel)))).trans (by decide +kernel)

end NextEmu.Simple.TrapVectors
