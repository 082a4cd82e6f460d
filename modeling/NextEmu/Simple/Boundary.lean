import NextEmu.Simple.PreciseTraps

/-!
# The boundary between the modes

The mode rises only by a trap, into the handler that the trap vector of the new
mode gives, and falls only by `mret` and `sret`. Below M mode, a step that does
not trap to M mode leaves alone what belongs to M mode. Both are read off the
outcomes of a step; the CSR instructions need the one fact that every CSR a lower
mode may write is one of S mode.
-/

namespace NextEmu.Simple.Boundary

open NextEmu.Lib.AbortState NextEmu.Lib.BitField NextEmu.Sdk
open Outcomes

variable {β : Type} [SlaveAtomicIOI β]

/-! ## Changes of the mode -/

section Mode

variable {c c' : RV64Core} {inst : BitVec 32}

theorem setGPR_mode (c : RV64Core) (rd : BitVec 5) (value : BitVec 64) :
    (c.setGPR rd value).nextPrivMode = c.nextPrivMode := by
  unfold RV64Core.setGPR
  split <;> rfl

theorem retire_mode (c : RV64Core) (l : StepLocals) :
    (c.advancePC l).retire.nextPrivMode = c.nextPrivMode := by
  unfold RV64Core.advancePC
  split
  · rfl
  · split <;> rfl

/-- An instruction that is done changes the mode only as `mret` or `sret`. -/
theorem Effect.mode (h : Effect inst c c') :
    c'.nextPrivMode = c.nextPrivMode ∨
    inst = 0x30200073 ∧ c.currentPrivMode = .mMode ∨
    inst = 0x10200073 ∧ PrivMode.sMode.level ≤ c.currentPrivMode.level ∧
      c'.nextPrivMode.level ≤ PrivMode.sMode.level := by
  cases h with
  | gpr rd value => exact .inl (setGPR_mode c rd value)
  | jump rd value pc => exact .inl (setGPR_mode c rd value)
  | csr n data c'' rd value permitted written =>
    exact .inl ((setGPR_mode c'' rd value).trans (csrWrite_unwritten written).nextPrivMode)
  | mret hinst hmode => exact .inr (.inl ⟨hinst, hmode⟩)
  | sret hinst hmode =>
    refine .inr (.inr ⟨hinst, hmode, ?_⟩)
    simp only [RV64Core.returnedS, sppMode]
    split <;> decide

/-- A trap from an implemented mode does not lower the mode, and goes to its handler. -/
theorem trapped_mode (hp : c.currentPrivMode.Implemented) (cause : Cause) (tval : BitVec 64) :
    c.currentPrivMode.level ≤ (c.trapped cause tval).nextPrivMode.level ∧
    (c.trapped cause tval).trapProgramCounter =
      trapPC (if (c.trapped cause tval).nextPrivMode = .mMode then c.csrMTrapVecBaseAddr
        else c.csrSTrapVecBaseAddr) cause.val := by
  have hlevel : c.currentPrivMode.level ≤ 3 := by
    cases c.currentPrivMode <;> decide
  unfold RV64Core.trapped
  dsimp only
  split
  · rename_i hd
    have hne : c.currentPrivMode ≠ .mMode := by
      intro hm
      simp [RV64Core.delegated, hm] at hd
    refine ⟨?_, rfl⟩
    change c.currentPrivMode.level ≤ PrivMode.sMode.level
    rcases hp with h | h | h
    · exact Nat.le_trans (Nat.le_of_eq (congrArg PrivMode.level h)) (by decide)
    · exact Nat.le_of_eq (congrArg PrivMode.level h)
    · exact absurd h hne
  · exact ⟨hlevel, rfl⟩

end Mode

/-- The executed instruction of a step: it was fetched, and the step did not trap. -/
def Executed (t : Machine β) (inst : BitVec 32) : Prop :=
  inst ∈ fetches t.trace ∧ traps t.trace = []

/-- A step raises the mode only by a trap into its handler, lowers it only by `mret` from M
mode and `sret` from S mode or above, and never by a trap. -/
theorem mode_change (s t : Machine β) (hp : s.core.nextPrivMode.Implemented)
    (h : step { s with trace := [] } = .ok () t) :
    (s.core.nextPrivMode.level < t.core.nextPrivMode.level →
      ∃ cause tval, (cause, tval) ∈ traps t.trace ∧
        t.core.currentProgramCounter =
          trapPC (if t.core.nextPrivMode = .mMode then s.core.csrMTrapVecBaseAddr
            else s.core.csrSTrapVecBaseAddr) cause.val) ∧
    (t.core.nextPrivMode.level < s.core.nextPrivMode.level →
      Executed t 0x30200073 ∧ s.core.nextPrivMode = .mMode ∨
      Executed t 0x10200073 ∧ PrivMode.sMode.level ≤ s.core.nextPrivMode.level) ∧
    (traps t.trace ≠ [] → s.core.nextPrivMode.level ≤ t.core.nextPrivMode.level) := by
  have ho := wp_ok (step_outcome { s with trace := [] }) h
  cases ho with
  | trapped cause tval core bus hlog =>
    obtain ⟨fetched, hlog⟩ := hlog
    obtain ⟨hle, hpc⟩ := trapped_mode (c := s.core.sampled) hp cause tval
    have hmem : (cause, tval) ∈ traps t.trace := by
      rw [mem_traps, hlog]
      exact List.mem_cons_self
    rw [core]
    exact ⟨fun _ => ⟨cause, tval, hmem, hpc⟩, fun hlt => absurd hlt (Nat.not_lt.mpr hle),
      fun _ => hle⟩
  | done inst c l effect core hlog =>
    have htraps : traps t.trace = [] := by
      refine List.eq_nil_iff_forall_not_mem.mpr fun ⟨cause, tval⟩ hm => ?_
      rw [mem_traps, hlog] at hm
      simp [log] at hm
    have hexec : Executed t inst := by
      refine ⟨?_, htraps⟩
      rw [mem_fetches, hlog]
      exact List.mem_cons_self
    have hnext : t.core.nextPrivMode = c.nextPrivMode := by rw [core, retire_mode]
    have hstart : s.core.sampled.currentPrivMode = s.core.nextPrivMode := rfl
    have hstart' : s.core.sampled.nextPrivMode = s.core.nextPrivMode := rfl
    have hlevel : c.nextPrivMode.level ≤ PrivMode.mMode.level := by
      cases c.nextPrivMode <;> decide
    have hmode := Effect.mode effect
    rw [hstart, hstart'] at hmode
    rw [hnext]
    refine ⟨fun hlt => ?_, fun hlt => ?_, fun hne => absurd htraps hne⟩
    · rcases hmode with hsame | ⟨-, hm⟩ | ⟨-, hs, hle⟩
      · rw [hsame] at hlt
        exact absurd hlt (Nat.lt_irrefl _)
      · rw [hm] at hlt
        exact absurd hlt (Nat.not_lt.mpr hlevel)
      · exact absurd hlt (Nat.not_lt.mpr (Nat.le_trans hle hs))
    · rcases hmode with hsame | ⟨rfl, hm⟩ | ⟨rfl, hs, -⟩
      · rw [hsame] at hlt
        exact absurd hlt (Nat.lt_irrefl _)
      · exact .inl ⟨hexec, hm⟩
      · exact .inr ⟨hexec, hs⟩

/-- The call raises the mode from U to S, to the handler of S mode. -/
theorem mode_change_ecall :
    PrivMode.uMode.level < (final step PreciseTraps.ecallMachine).core.nextPrivMode.level ∧
    ∃ cause tval, (cause, tval) ∈ traps (final step PreciseTraps.ecallMachine).trace ∧
      (final step PreciseTraps.ecallMachine).core.currentProgramCounter =
        trapPC (if (final step PreciseTraps.ecallMachine).core.nextPrivMode = .mMode
          then PreciseTraps.ecallMachine.core.csrMTrapVecBaseAddr
          else PreciseTraps.ecallMachine.core.csrSTrapVecBaseAddr) cause.val := by
  have hrise : PrivMode.uMode.level <
      (final step PreciseTraps.ecallMachine).core.nextPrivMode.level := by decide +kernel
  exact ⟨hrise, (mode_change PreciseTraps.ecallMachine _ (.inl rfl)
    (eq_final (by decide +kernel))).1 hrise⟩

/-! ## What belongs to M mode -/

/-- The bits of the status that a lower mode may change: `sie`, `spie`, `spp`, `mprv` (cleared
by `sret`), `sum` and `mxr`. -/
def lowerBits : List Nat :=
  [MStatus.sie, MStatus.spie, MStatus.spp, MStatus.mprv, MStatus.sum, MStatus.mxr]

/-- What belongs to M mode is the same before and after. -/
structure SameMachine (c c' : RV64Core) : Prop where
  status : ∀ i, i ∉ lowerBits → c'.status.getLsbD i = c.status.getLsbD i
  medeleg : c'.csrMExceptionDelegation = c.csrMExceptionDelegation
  mideleg : c'.csrMIntDelegation = c.csrMIntDelegation
  mtvec : c'.csrMTrapVecBaseAddr = c.csrMTrapVecBaseAddr
  mepc : c'.csrMExceptionPC = c.csrMExceptionPC
  mcause : c'.csrMachineCause = c.csrMachineCause
  mtval : c'.csrMachineTrapVal = c.csrMachineTrapVal
  mscratch : c'.csrMscratch = c.csrMscratch
  mcounteren : c'.csrMCounterEN = c.csrMCounterEN
  misa : c'.csrMachineISA = c.csrMachineISA
  mie : c'.csrIntEnable &&& ~~~ sModeIntMask = c.csrIntEnable &&& ~~~ sModeIntMask

section Same

variable {c c' c'' : RV64Core} {inst : BitVec 32}

theorem SameMachine.refl (c : RV64Core) : SameMachine c c := by
  constructor <;> intros <;> rfl

theorem SameMachine.trans (h : SameMachine c c') (h' : SameMachine c' c'') :
    SameMachine c c'' where
  status i hi := (h'.status i hi).trans (h.status i hi)
  medeleg := h'.medeleg.trans h.medeleg
  mideleg := h'.mideleg.trans h.mideleg
  mtvec := h'.mtvec.trans h.mtvec
  mepc := h'.mepc.trans h.mepc
  mcause := h'.mcause.trans h.mcause
  mtval := h'.mtval.trans h.mtval
  mscratch := h'.mscratch.trans h.mscratch
  mcounteren := h'.mcounteren.trans h.mcounteren
  misa := h'.misa.trans h.misa
  mie := h'.mie.trans h.mie

/-- The CSRs that a write may reach from below M mode. -/
def lowerCSRs : List CSRAddr :=
  [.sstatus, .sie, .stvec, .scounteren, .sscratch, .sepc, .scause, .stval, .sip, .satp]

theorem lower_csr {n : BitVec 12} {a : CSRAddr}
    (hp : c.currentPrivMode = .uMode ∨ c.currentPrivMode = .sMode)
    (permitted : c.csrOpPermissionCheck n true = true) (ha : CSRAddr.ofNumber n = some a) :
    a ∈ lowerCSRs := by
  have hlevel : c.currentPrivMode.level ≤ 1 := by
    rcases hp with h | h <;> rw [h] <;> decide
  have hn : (n >>> 8 &&& 3).toNat ≤ 1 ∧ (n >>> 10 &&& 3 == 3) = false := by
    unfold RV64Core.csrOpPermissionCheck at permitted
    split at permitted
    · cases permitted
    · split at permitted
      · cases permitted
      · rename_i hl hw
        exact ⟨by omega, by simpa using hw⟩
  unfold CSRAddr.ofNumber at ha
  split at ha
  all_goals
    first
    | (cases ha; done)
    | (cases ha; decide)
    | exact absurd hn (by decide)

theorem getLsbD_setBit_lower {v : BitVec 64} {b : Bool} {i j : Nat} (hi : i ∉ lowerBits)
    (hj : j ∈ lowerBits) : (setBit v j b).getLsbD i = v.getLsbD i :=
  getLsbD_setBit_ne v b fun h => hi (h ▸ hj)

theorem getLsbD_writeSStatus (status data : BitVec 64) {i : Nat} (hi : i ∉ lowerBits) :
    (writeSStatus status data).getLsbD i = status.getLsbD i := by
  simp only [writeSStatus]
  iterate 5 rw [getLsbD_setBit_lower hi]
  all_goals decide

/-- `sie` is the part of the enable register that S mode owns. -/
theorem sie_outside (v data : BitVec 64) :
    ((v &&& ~~~ sModeIntMask) ||| (data &&& sModeIntMask)) &&& ~~~ sModeIntMask =
      v &&& ~~~ sModeIntMask := by
  refine BitVec.eq_of_getLsbD_eq fun i hi => ?_
  simp only [BitVec.getLsbD_and, BitVec.getLsbD_or, BitVec.getLsbD_not, hi, decide_true,
    Bool.true_and]
  cases v.getLsbD i <;> cases sModeIntMask.getLsbD i <;> simp

theorem csrWrite_same {data : BitVec 64} {a : CSRAddr} (ha : a ∈ lowerCSRs)
    (h : c.csrWrite data (some a) = .ok (some c')) : SameMachine c c' := by
  have hsame := SameMachine.refl c
  simp only [lowerCSRs, List.mem_cons, List.not_mem_nil, or_false] at ha
  rcases ha with rfl | rfl | rfl | rfl | rfl | rfl | rfl | rfl | rfl | rfl
  case inl => cases h; exact { hsame with status := fun i hi => getLsbD_writeSStatus _ _ hi }
  case inr.inl => cases h; exact { hsame with mie := sie_outside _ _ }
  case inr.inr.inr.inr.inr.inr.inr.inr.inr =>
    simp only [RV64Core.csrWrite] at h
    split at h <;> cases h
    exact { hsame with }
  all_goals
    cases h
    exact { hsame with }

theorem setGPR_same (c : RV64Core) (rd : BitVec 5) (value : BitVec 64) :
    SameMachine c (c.setGPR rd value) := by
  unfold RV64Core.setGPR
  split
  · exact .refl c
  · exact { SameMachine.refl c with }

theorem returnedS_same (c : RV64Core) : SameMachine c c.returnedS := by
  refine { SameMachine.refl c with status := fun i hi => ?_ }
  simp only [RV64Core.returnedS]
  rw [getLsbD_setBit_lower hi (by decide)]
  split
  · rw [getLsbD_setBit_lower hi (by decide), getLsbD_setBit_lower hi (by decide),
      getLsbD_setBit_lower hi (by decide)]
  · rw [getLsbD_setBit_lower hi (by decide), getLsbD_setBit_lower hi (by decide)]

/-- So does a trap to S mode. -/
theorem trapToS_same (c : RV64Core) (cause : Cause) (tval : BitVec 64) :
    SameMachine c (c.trapToS cause tval) := by
  refine { SameMachine.refl c with status := fun i hi => ?_ }
  simp only [RV64Core.trapToS]
  rw [getLsbD_setBit_lower hi (by decide), getLsbD_setBit_lower hi (by decide),
    getLsbD_setBit_lower hi (by decide)]

/-- Below M mode an instruction that is done leaves alone what belongs to M mode. -/
theorem Effect.same (hp : c.currentPrivMode = .uMode ∨ c.currentPrivMode = .sMode)
    (h : Effect inst c c') : SameMachine c c' := by
  cases h with
  | gpr rd value => exact setGPR_same c rd value
  | jump rd value pc => exact { setGPR_same c rd value with }
  | csr n data c'' rd value permitted written =>
    cases ha : CSRAddr.ofNumber n with
    | none => rw [ha] at written; cases written
    | some a =>
      rw [ha] at written
      exact (csrWrite_same (lower_csr hp permitted ha) written).trans (setGPR_same c'' rd value)
  | mret hinst hmode => rcases hp with h | h <;> rw [h] at hmode <;> cases hmode
  | sret hinst hmode => exact returnedS_same c

theorem retire_same (c : RV64Core) (l : StepLocals) : SameMachine c (c.advancePC l).retire := by
  unfold RV64Core.advancePC
  split
  · exact { SameMachine.refl c with }
  · split <;> exact { SameMachine.refl c with }

theorem trapEnd_same (c : RV64Core) : SameMachine c (trapEnd c) := { SameMachine.refl c with }

/-- A trap keeps it too, unless it goes to M mode. -/
theorem trapped_same (cause : Cause) (tval : BitVec 64)
    (h : (c.trapped cause tval).nextPrivMode ≠ .mMode) : SameMachine c (c.trapped cause tval) := by
  unfold RV64Core.trapped at h ⊢
  dsimp only at h ⊢
  split at h
  · rename_i hd
    rw [if_pos hd]
    have hflag : SameMachine c { c with needTrap := true } := { SameMachine.refl c with }
    exact hflag.trans (trapToS_same _ cause tval)
  · exact absurd rfl h

end Same

/-- The fields and registers of M mode, one by one. -/
structure MachineKept (c c' : RV64Core) : Prop extends SameMachine c c' where
  statusMIE : c'.status.getLsbD MStatus.mie = c.status.getLsbD MStatus.mie
  statusMPIE : c'.status.getLsbD MStatus.mpie = c.status.getLsbD MStatus.mpie
  statusMPP : field c'.status MStatus.mpp 2 = field c.status MStatus.mpp 2
  statusTVM : c'.status.getLsbD MStatus.tvm = c.status.getLsbD MStatus.tvm
  statusTW : c'.status.getLsbD MStatus.tw = c.status.getLsbD MStatus.tw
  statusTSR : c'.status.getLsbD MStatus.tsr = c.status.getLsbD MStatus.tsr
  statusSXL : field c'.status MStatus.sxl 2 = field c.status MStatus.sxl 2

theorem SameMachine.kept {c c' : RV64Core} (h : SameMachine c c') : MachineKept c c' := by
  have htwo : ∀ lo, (∀ i, lo ≤ i → i < lo + 2 → i ∉ lowerBits) →
      field c'.status lo 2 = field c.status lo 2 :=
    fun lo hlo => field_congr fun i h1 h2 => h.status i (hlo i h1 h2)
  refine { h with
    statusMIE := h.status _ (by decide), statusMPIE := h.status _ (by decide)
    statusMPP := htwo _ fun i h1 h2 => ?_, statusTVM := h.status _ (by decide)
    statusTW := h.status _ (by decide), statusTSR := h.status _ (by decide)
    statusSXL := htwo _ fun i h1 h2 => ?_ }
  · have hi : i = 11 ∨ i = 12 := by
      simp only [MStatus.mpp] at h1 h2
      omega
    rcases hi with rfl | rfl <;> decide
  · have hi : i = 34 ∨ i = 35 := by
      simp only [MStatus.sxl] at h1 h2
      omega
    rcases hi with rfl | rfl <;> decide

/-- A step from U or S mode that does not trap to M mode keeps what belongs to M mode. -/
theorem machine_kept (s t : Machine β)
    (hp : s.core.nextPrivMode = .uMode ∨ s.core.nextPrivMode = .sMode)
    (h : step { s with trace := [] } = .ok () t)
    (hnot : ¬ (traps t.trace ≠ [] ∧ t.core.nextPrivMode = .mMode)) :
    MachineKept s.core t.core := by
  have hsampled : SameMachine s.core s.core.sampled := { SameMachine.refl s.core with }
  have ho := wp_ok (step_outcome { s with trace := [] }) h
  cases ho with
  | trapped cause tval core bus hlog =>
    obtain ⟨fetched, hlog⟩ := hlog
    have hmem : (cause, tval) ∈ traps t.trace := by
      rw [mem_traps, hlog]
      exact List.mem_cons_self
    have hnext : t.core.nextPrivMode ≠ .mMode := fun hm => hnot ⟨List.ne_nil_of_mem hmem, hm⟩
    rw [core] at hnext ⊢
    have htrap := trapped_same cause tval hnext
    exact (hsampled.trans (htrap.trans (trapEnd_same _))).kept
  | done inst c l effect core hlog =>
    rw [core]
    exact (hsampled.trans ((Effect.same hp effect).trans (retire_same c l))).kept

/-- The environment call of U mode goes to S mode and keeps it. -/
theorem machine_kept_ecall :
    MachineKept PreciseTraps.ecallMachine.core (final step PreciseTraps.ecallMachine).core :=
  machine_kept PreciseTraps.ecallMachine _ (.inl rfl) (eq_final (by decide +kernel))
    (by decide +kernel)

end NextEmu.Simple.Boundary
