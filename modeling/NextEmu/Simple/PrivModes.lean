import NextEmu.Simple.Legality

/-!
# Legal privilege modes

The mode that `mret` returns to is read off MPP, and traps write the current mode
into it, so the modes stay implemented ones as long as nothing else writes the
unimplemented mode 2 there. Only a CSR instruction on `mstatus` can, and it does so
unchecked.
-/

namespace NextEmu.Simple.PrivModes

open NextEmu.Lib.AbortState NextEmu.Lib.BitField NextEmu.Sdk
open Boundary Conformance Legality Outcomes Translation

/-- The mode that MPP names. -/
def mppMode (status : BitVec 64) : PrivMode := PrivMode.ofBits (field status MStatus.mpp 2)

/-- No register of the core names the unimplemented mode. -/
structure PrivLegal (c : RV64Core) : Prop where
  current : c.currentPrivMode.Implemented
  next : c.nextPrivMode.Implemented
  mpp : (mppMode c.status).Implemented

/-- The value that a CSR instruction writes to `mstatus`. -/
def mstatusWritten (c : RV64Core) (inst : BitVec 32) : Option (BitVec 64) :=
  if OpCode.ofBits (RVInst.opcode inst) = some .system ∧ field inst 20 12 = 0x300 ∧
      c.csrOpPermissionCheck 0x300 true = true then csrWritten c inst
  else none

variable {β : Type} [SlaveAtomicIOI β]

/-- The instruction that the next step executes leaves mode 2 out of MPP. -/
def mppSpared (s : Machine β) : Bool :=
  match fetchedWord s with
  | none => true
  | some inst =>
    match mstatusWritten s.core.sampled inst with
    | none => true
    | some data => field data MStatus.mpp 2 != 2

/-! ## What writes MPP and the modes -/

section Writes

variable {c c' : RV64Core} {inst : BitVec 32}

theorem ofBits_toBits (p : PrivMode) : PrivMode.ofBits p.toBits = p := by cases p <;> rfl

theorem implemented_iff (b : BitVec 2) : (PrivMode.ofBits b).Implemented ↔ b ≠ 2 := by
  unfold PrivMode.Implemented
  revert b
  decide

theorem mppMode_congr {v v' : BitVec 64} (h : ∀ i, 11 ≤ i → i < 13 → v'.getLsbD i = v.getLsbD i) :
    mppMode v' = mppMode v := congrArg PrivMode.ofBits (field_congr h)

theorem mppMode_set (v : BitVec 64) (x : BitVec 2) :
    mppMode (setField v MStatus.mpp x) = PrivMode.ofBits x := by
  refine congrArg PrivMode.ofBits (BitVec.eq_of_getLsbD_eq fun i hi => ?_)
  have hin : 11 ≤ 11 + i ∧ 11 + i < 11 + 2 := by omega
  have hlt : 11 + i < 64 := by omega
  have hsub : 11 + i - 11 = i := by omega
  simp only [MStatus.mpp, BitVec.getLsbD_extractLsb', getLsbD_setField, hin, and_self, if_true,
    hlt, hi, decide_true, Bool.true_and, hsub]

/-- A write of one bit beside MPP. -/
theorem mppMode_setBit (v : BitVec 64) {i : Nat} (hi : i < 11 ∨ 13 ≤ i) (b : Bool) :
    mppMode (setBit v i b) = mppMode v :=
  mppMode_congr fun j hlo hhi => getLsbD_setBit_ne v b (by omega)

theorem mppMode_writeMStatus (status data : BitVec 64) :
    mppMode (writeMStatus status data) = mppMode data := by
  unfold writeMStatus
  dsimp only
  rw [mppMode_setBit _ (by decide), mppMode_setBit _ (by decide), mppMode_setBit _ (by decide),
    mppMode_setBit _ (by decide), mppMode_setBit _ (by decide), mppMode_setBit _ (by decide),
    mppMode_set]
  rfl

theorem mppMode_writeSStatus (status data : BitVec 64) :
    mppMode (writeSStatus status data) = mppMode status := by
  unfold writeSStatus
  dsimp only
  rw [mppMode_setBit _ (by decide), mppMode_setBit _ (by decide), mppMode_setBit _ (by decide),
    mppMode_setBit _ (by decide), mppMode_setBit _ (by decide)]

theorem sampled_priv (h : PrivLegal c) : PrivLegal c.sampled := ⟨h.next, h.next, h.mpp⟩

theorem trapped_priv (h : PrivLegal c) (cause : Cause) (tval : BitVec 64) :
    PrivLegal (c.trapped cause tval) := by
  unfold RV64Core.trapped
  dsimp only
  split
  · refine ⟨h.current, .inr (.inl rfl), ?_⟩
    simp only [RV64Core.trapToS]
    rw [mppMode_setBit _ (by decide), mppMode_setBit _ (by decide), mppMode_setBit _ (by decide)]
    exact h.mpp
  · refine ⟨h.current, .inr (.inr rfl), ?_⟩
    simp only [RV64Core.trapToM]
    rw [mppMode_set, ofBits_toBits]
    exact h.current

theorem returnedM_priv (h : PrivLegal c) : PrivLegal c.returnedM := by
  refine ⟨h.current, h.mpp, ?_⟩
  simp only [RV64Core.returnedM]
  rw [mppMode_set, ofBits_toBits]
  exact .inl rfl

theorem mppMode_clearMprv {p : Prop} [Decidable p] (v : BitVec 64) :
    mppMode (if p then setBit v MStatus.mprv false else v) = mppMode v := by
  split
  · exact mppMode_setBit _ (by decide) _
  · rfl

theorem returnedS_priv (h : PrivLegal c) : PrivLegal c.returnedS := by
  refine ⟨h.current, ?_, ?_⟩
  · simp only [RV64Core.returnedS, sppMode]
    split
    · exact .inr (.inl rfl)
    · exact .inl rfl
  · simp only [RV64Core.returnedS]
    rw [mppMode_setBit _ (by decide), mppMode_clearMprv, mppMode_setBit _ (by decide),
      mppMode_setBit _ (by decide)]
    exact h.mpp

theorem csrWrite_mpp {data : BitVec 64} {a : Option CSRAddr}
    (h : c.csrWrite data a = .ok (some c')) :
    mppMode c'.status = if a = some .mstatus then mppMode data else mppMode c.status := by
  unfold RV64Core.csrWrite at h
  split at h
  case h_1 => cases h; exact mppMode_writeMStatus _ _
  case h_14 => cases h; exact mppMode_writeSStatus _ _
  all_goals
    first
    | (cases h; done)
    | (cases h; rfl)
    | (split at h <;> cases h; rfl)

theorem ofNumber_mstatus {n : BitVec 12} (h : CSRAddr.ofNumber n = some .mstatus) :
    n = 0x300 := by
  unfold CSRAddr.ofNumber at h
  split at h <;> first | rfl | cases h

theorem plain_priv (h : PrivLegal c) (he : PlainEffect c c') : PrivLegal c' := by
  have hset : ∀ rd value, PrivLegal (c.setGPR rd value) := by
    intro rd value
    unfold RV64Core.setGPR
    split
    · exact h
    · exact { h with }
  cases he with
  | gpr rd value => exact hset rd value
  | jump rd value pc => exact { hset rd value with }

theorem system_priv (h : PrivLegal c) (hop : OpCode.ofBits (RVInst.opcode inst) = some .system)
    (hmpp : ∀ data, mstatusWritten c inst = some data → field data MStatus.mpp 2 ≠ 2)
    (he : SystemEffect inst c c') : PrivLegal c' := by
  cases he with
  | plain effect => exact plain_priv h effect
  | csr data c'' value permitted data_eq written =>
    refine plain_priv ?_ (.gpr _ value)
    have hmodes := csrWrite_unwritten written
    refine ⟨hmodes.currentPrivMode ▸ h.current, hmodes.nextPrivMode ▸ h.next, ?_⟩
    rw [csrWrite_mpp written]
    split
    · rename_i ha
      have hn := ofNumber_mstatus ha
      refine (implemented_iff _).mpr (hmpp data ?_)
      unfold mstatusWritten
      rw [if_pos ⟨hop, hn, hn ▸ permitted⟩]
      exact data_eq
    · exact h.mpp
  | mret => exact returnedM_priv h
  | sret => exact returnedS_priv h

theorem code_priv (h : PrivLegal c)
    (hmpp : ∀ data, mstatusWritten c inst = some data → field data MStatus.mpp 2 ≠ 2)
    (he : CodeEffect inst c c') : PrivLegal c' := by
  rcases he with he | ⟨hop, he⟩
  · exact plain_priv h he
  · exact system_priv h hop hmpp he

theorem retired_priv (h : PrivLegal c) (l : StepLocals) : PrivLegal (c.advancePC l).retire := by
  unfold RV64Core.advancePC
  split
  · exact { h with }
  · split
    · exact { h with }
    · exact { h with }

end Writes

/-! ## Steps -/

section Steps

variable {s t : Machine β} {inst : BitVec 32}

/-- A step that spares MPP keeps the modes legal. -/
theorem step_spared (h : PrivLegal s.core) (hpre : mppSpared s = true) :
    wp step (fun _ t => PrivLegal t.core) (fun _ _ => True) s := by
  have hs := sampled_priv h
  refine wp_mono (step_effect s) (fun _ t ho => ?_) (fun _ _ _ => trivial)
  cases ho with
  | trapped cause tval hcore =>
    rw [hcore]
    exact { trapped_priv hs cause tval with }
  | done inst c l hw effect hcore =>
    rw [hcore]
    refine retired_priv (code_priv hs (fun data hdata => ?_) effect) l
    simpa only [mppSpared, hw, hdata, bne_iff_ne] using hpre

omit [SlaveAtomicIOI β] in
/-- A CSR instruction that has something to write is one that reads, and announces the write. -/
theorem execSystem_writes {data : BitVec 64} (h : csrWritten s.core inst = some data) :
    ∃ newValue v, s.core.csrRead (CSRAddr.ofNumber (field inst 20 12)) = some v ∧
      newValue v = some data ∧ execSystem inst s = csrInstr inst true newValue s := by
  have hf3 : RVInst.funct3 inst ≠ 0 := by
    intro hzero
    unfold csrWritten at h
    rw [hzero] at h
    cases hread : s.core.csrRead (CSRAddr.ofNumber (field inst 20 12)) with
    | none =>
      rw [hread] at h
      cases h
    | some v =>
      rw [hread] at h
      cases h
  rcases execSystem_csr hf3 s with ⟨hnone, -⟩ | ⟨write, newValue, hw, hnew, hcsr⟩
  · exact absurd (hnone.symm.trans h) nofun
  · cases hread : s.core.csrRead (CSRAddr.ofNumber (field inst 20 12)) with
    | none =>
      unfold csrWritten at h
      rw [hread] at h
      cases h
    | some v =>
      have hval := (hnew v hread).symm.trans h
      rw [hw v data hval] at hcsr
      exact ⟨newValue, v, rfl, hval, hcsr⟩

omit [SlaveAtomicIOI β] in
/-- One that is allowed to write comes to the write. -/
theorem csrInstr_writes {newValue : BitVec 64 → Option (BitVec 64)} {v data : BitVec 64}
    (hperm : s.core.csrOpPermissionCheck (field inst 20 12) true = true)
    (hread : s.core.csrRead (CSRAddr.ofNumber (field inst 20 12)) = some v)
    (hval : newValue v = some data) :
    csrInstr inst true newValue s =
      (match s.core.csrWrite data (CSRAddr.ofNumber (field inst 20 12)) with
        | .error a => throw a
        | .ok none => return instrIllegal
        | .ok (some c') => do
          modifyCore fun _ => c'
          setGPR (RVInst.rd inst) v
          return retired : Emu β ExecFlags) s := by
  have hdenied : ¬ (!s.core.csrOpPermissionCheck (field inst 20 12) true) = true := by
    rw [hperm]
    decide
  unfold csrInstr
  rw [bind_of_ok (getCore_run s), if_neg hdenied, hread]
  rcases hwrite : s.core.csrWrite data (CSRAddr.ofNumber (field inst 20 12)) with a | _ | c'
  all_goals
    simp only [hval, hwrite]

omit [SlaveAtomicIOI β] in
theorem csrInstr_run {newValue : BitVec 64 → Option (BitVec 64)} {v data : BitVec 64}
    {c' : RV64Core} (hperm : s.core.csrOpPermissionCheck (field inst 20 12) true = true)
    (hread : s.core.csrRead (CSRAddr.ofNumber (field inst 20 12)) = some v)
    (hval : newValue v = some data)
    (hwrite : s.core.csrWrite data (CSRAddr.ofNumber (field inst 20 12)) = .ok (some c')) :
    csrInstr inst true newValue s =
      .ok retired { s with core := c'.setGPR (RVInst.rd inst) v } := by
  rw [csrInstr_writes hperm hread hval, hwrite]
  exact rfl

theorem retire_status (c : RV64Core) (l : StepLocals) :
    (c.advancePC l).retire.status = c.status := by
  unfold RV64Core.advancePC
  split
  · rfl
  · split <;> rfl

/-- The code of a CSR instruction that has something to write and may. -/
theorem csr_execute {data : BitVec 64} (hw : fetchedWord s = some inst)
    (hop : OpCode.ofBits (RVInst.opcode inst) = some .system)
    (hdata : csrWritten s.core.sampled inst = some data) :
    ∃ newValue v, s.core.sampled.csrRead (CSRAddr.ofNumber (field inst 20 12)) = some v ∧
      newValue v = some data ∧
      execute inst (decoding s inst) = csrInstr inst true newValue (decoding s inst) := by
  rw [← (decoding_silent hw).1] at hdata ⊢
  obtain ⟨newValue, v, hread, hval, hsys⟩ := execSystem_writes hdata
  refine ⟨newValue, v, hread, hval, ?_⟩
  have hfull : isCompressed inst = false := by
    unfold isCompressed
    rw [opcode_system hop]
    decide
  unfold execute
  rw [hfull, exec32_system hop]
  exact hsys

/-- The step of a CSR instruction that writes: the write, the old value in `rd`, and the end. -/
theorem csr_step_eq {data : BitVec 64} {c' : RV64Core} (hw : fetchedWord s = some inst)
    (hop : OpCode.ofBits (RVInst.opcode inst) = some .system)
    (hperm : s.core.sampled.csrOpPermissionCheck (field inst 20 12) true = true)
    (hdata : csrWritten s.core.sampled inst = some data)
    (hwrite : s.core.sampled.csrWrite data (CSRAddr.ofNumber (field inst 20 12)) =
      .ok (some c')) :
    ∃ v, step s =
      endStep { inst := inst, isCompressedInst := isCompressed inst, flags := retired }
        { decoding s inst with core := c'.setGPR (RVInst.rd inst) v } := by
  obtain ⟨newValue, v, hread, hval, hexec⟩ := csr_execute hw hop hdata
  rw [← (decoding_silent hw).1] at hperm hread hwrite
  refine ⟨v, ?_⟩
  rw [step_eq hw, bind_of_ok (hexec.trans (csrInstr_run hperm hread hval hwrite))]

theorem csr_step {data : BitVec 64} {c' : RV64Core} (hw : fetchedWord s = some inst)
    (hop : OpCode.ofBits (RVInst.opcode inst) = some .system)
    (hperm : s.core.sampled.csrOpPermissionCheck (field inst 20 12) true = true)
    (hdata : csrWritten s.core.sampled inst = some data)
    (hwrite : s.core.sampled.csrWrite data (CSRAddr.ofNumber (field inst 20 12)) =
      .ok (some c')) (hstep : step s = .ok () t) :
    ∃ v l, t.core = ((c'.setGPR (RVInst.rd inst) v).advancePC l).retire := by
  obtain ⟨v, heq⟩ := csr_step_eq hw hop hperm hdata hwrite
  rw [heq] at hstep
  have hend := wp_ok (endStep_legal rfl _) hstep
  exact ⟨v, _, congrArg Machine.core hend⟩

/-- A step that does not leaves mode 2 in MPP. -/
theorem unspared_mpp (hpre : mppSpared s = false) :
    ∃ inst data, fetchedWord s = some inst ∧ mstatusWritten s.core.sampled inst = some data ∧
      ∀ t, step s = .ok () t → mppMode t.core.status = .hMode := by
  unfold mppSpared at hpre
  split at hpre
  · cases hpre
  rename_i inst hw
  split at hpre
  · cases hpre
  rename_i data hdata
  have hmode : mppMode data = .hMode := by
    have hfield : field data MStatus.mpp 2 = 2 := by simpa using hpre
    exact congrArg PrivMode.ofBits hfield
  refine ⟨inst, data, hw, hdata, fun t hstep => ?_⟩
  unfold mstatusWritten at hdata
  split at hdata
  case isFalse => cases hdata
  rename_i hcond
  obtain ⟨hop, hn, hperm⟩ := hcond
  have hwrite : s.core.sampled.csrWrite data (CSRAddr.ofNumber (field inst 20 12)) =
      .ok (some { s.core.sampled with status := writeMStatus s.core.sampled.status data }) := by
    rw [hn]
    rfl
  obtain ⟨v, l, hend⟩ := csr_step hw hop (hn.symm ▸ hperm) hdata hwrite hstep
  rw [hend, retire_status, setGPR_status, mppMode_writeMStatus, hmode]

theorem step_unspared (hpre : mppSpared s = false) (hstep : step s = .ok () t) :
    ¬ PrivLegal t.core := by
  obtain ⟨-, -, -, -, hmpp⟩ := unspared_mpp hpre
  intro hlegal
  have himpl := hlegal.mpp
  rw [hmpp t hstep] at himpl
  rcases himpl with h | h | h <;> cases h

end Steps

/-! ## Runs -/

section Runs

variable {s : Machine β}

theorem reset_priv (c : RV64Core) : PrivLegal c.reset where
  current := .inr (.inr rfl)
  next := .inr (.inr rfl)
  mpp := .inl (show mppMode (setField (setField 0 MStatus.sxl (2#2)) MStatus.uxl (2#2)) = .uMode
    by decide)

/-- In a run that spares MPP the modes are legal, and the next step keeps them so exactly when it
spares MPP too. -/
theorem priv_legal (s : Machine β)
    (h : ReachedIf (fun m => mppSpared { m with trace := [] } = true) s) :
    PrivLegal s.core ∧ ∀ t, step { s with trace := [] } = .ok () t →
      (PrivLegal t.core ↔ mppSpared { s with trace := [] } = true) := by
  have hpriv : PrivLegal s.core := by
    induction h with
    | initial h =>
      obtain ⟨c, hc⟩ := h.core
      rw [hc]
      exact reset_priv c
    | environment _ _ _ ih => exact { ih with }
    | @step s t _ hpre hstep ih =>
      exact wp_ok (step_spared (s := { s with trace := [] }) ih hpre) hstep
  refine ⟨hpriv, fun t hstep => ⟨fun hlegal => ?_, fun hpre => ?_⟩⟩
  · cases hpre : mppSpared { s with trace := [] } with
    | true => rfl
    | false => exact absurd hlegal (step_unspared hpre hstep)
  · exact wp_ok (step_spared (s := { s with trace := [] }) hpriv hpre) hstep

end Runs

/-- The second write of `mstatus` puts mode 2 into MPP, and `mret` enters it. -/
theorem mode_two_entered :
    ¬ ∀ s : Machine (AddrBus Empty), Reached (fun _ => True) s → PrivLegal s.core := by
  intro hall
  have hrun : ∀ i, i < 4 →
      returns step { after csrMachine i with trace := [] } = true ∧ True := by
    decide +kernel
  have hmode : (after csrMachine 4).core.nextPrivMode = .hMode := by decide +kernel
  have hnext := (hall _ (reached_after (.initial csrMachine_initial) 4 hrun)).next
  rw [hmode] at hnext
  rcases hnext with h | h | h <;> cases h

/-- The first write of `mstatus` spares MPP. -/
theorem priv_legal_spared :
    PrivLegal (after csrMachine 2).core ∧
    ∀ t, step { after csrMachine 2 with trace := [] } = .ok () t →
      (PrivLegal t.core ↔ mppSpared { after csrMachine 2 with trace := [] } = true) :=
  priv_legal _ (reachedIf_after (.initial csrMachine_initial) 2 (by decide +kernel))

end NextEmu.Simple.PrivModes
