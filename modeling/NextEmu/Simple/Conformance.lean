import NextEmu.Lib.RiscV
import NextEmu.Simple.PreciseTraps

/-!
# Steps that have the effect of an instruction

What it means that a step has an effect of the manual: which registers, which PC and
which memory it leaves. `Performs` is the same about the code of one instruction, with a
load or a store as a call of `memRead` or `memWrite`.
-/

namespace NextEmu.Simple.Conformance

open NextEmu.Lib.AbortState NextEmu.Lib.BitField NextEmu.Lib.RiscV NextEmu.Sdk
open Outcomes PreciseTraps

variable {β M : Type} [SlaveAtomicIOI β]

/-! ## The fetch -/

/-- The fetch of a step. -/
def fetch (s : Machine β) : EStateM.Result Assertion (Machine β) (VAddrFeedback × BitVec 32) :=
  vaddrInstFetchMMUAPI s.core.currentProgramCounter 4 { s with core := s.core.sampled }

/-- The word that a step fetches; none when it takes an interrupt or the fetch fails. -/
def fetchedWord (s : Machine β) : Option (BitVec 32) :=
  match s.core.sampled.intToRaise, fetch s with
  | none, .ok (.accessOk, inst) _ => some inst
  | _, _ => none

/-- The machine when the step decodes `inst`. -/
def decoding (s : Machine β) (inst : BitVec 32) : Machine β :=
  match fetch s with
  | .ok _ t | .error _ t => { t with trace := .fetched inst :: t.trace }

/-- The code of an instruction, compressed or not. -/
def execute (inst : BitVec 32) : Emu β ExecFlags :=
  if isCompressed inst then execRvc inst else exec32 inst

section Fetch

variable {s : Machine β} {inst : BitVec 32}

theorem fetchedWord_some (h : fetchedWord s = some inst) :
    s.core.sampled.intToRaise = none ∧ ∃ t, fetch s = .ok (.accessOk, inst) t := by
  unfold fetchedWord at h
  split at h
  · rename_i hint hfetch
    cases h
    exact ⟨hint, _, hfetch⟩
  · cases h

/-- A fetch that returns is one at an even address. -/
theorem fetch_even {fb : VAddrFeedback} {w : BitVec 32} {t : Machine β}
    (h : fetch s = .ok (fb, w) t) : s.core.currentProgramCounter % 2 = 0 := by
  refine Decidable.byContradiction fun hodd => ?_
  unfold fetch vaddrInstFetchMMUAPI assertThat at h
  rw [if_neg hodd] at h
  cases h

theorem decodeExec_eq (inst : BitVec 32) (t : Machine β) :
    decodeExec inst t = (do
      let flags ← execute inst
      return ({ inst := inst, isCompressedInst := isCompressed inst, flags := flags } : StepLocals))
        { t with trace := .fetched inst :: t.trace } := by
  unfold decodeExec execute
  rw [bind_of_ok (emit_run _ t)]
  cases isCompressed inst <;> rfl

theorem fetchDecodeExec_eq {t : Machine β} (hfetch : fetch s = .ok (.accessOk, inst) t) :
    fetchDecodeExec { s with core := s.core.sampled } = decodeExec inst t := by
  have heven := fetch_even hfetch
  have hodd : ¬ s.core.sampled.currentProgramCounter % 2 ≠ 0 := fun hne => hne heven
  have hfail : ¬ VAddrFeedback.accessOk ≠ .accessOk := fun hne => hne rfl
  unfold fetchDecodeExec
  rw [bind_of_ok (getCore_run _)]
  dsimp only
  have hrun : vaddrInstFetchMMUAPI s.core.sampled.currentProgramCounter 4
      { s with core := s.core.sampled } = .ok (.accessOk, inst) t := hfetch
  rw [if_neg hodd, bind_of_ok hrun]
  exact congrFun (if_neg hfail) t

/-- A step that fetches a word runs its code and ends. -/
theorem step_eq (h : fetchedWord s = some inst) :
    step s = (do
      let flags ← execute inst
      endStep { inst := inst, isCompressedInst := isCompressed inst, flags := flags })
        (decoding s inst) := by
  obtain ⟨hint, t, hfetch⟩ := fetchedWord_some h
  have hpre : preExec s = .ok () { s with core := s.core.sampled } := by
    unfold preExec
    rw [bind_of_ok (modifyCore_run _ s), bind_of_ok (getCore_run _)]
    simp only [hint]
    rfl
  have hdec : decoding s inst = { t with trace := .fetched inst :: t.trace } := by
    unfold decoding
    rw [hfetch]
  have hclear : ¬ s.core.sampled.needTrap = true := Bool.false_ne_true
  unfold step
  rw [bind_of_ok hpre, bind_of_ok (getCore_run _), if_neg hclear, hdec, run_bind,
    fetchDecodeExec_eq hfetch, decodeExec_eq, run_bind, run_bind]
  cases execute inst { t with trace := .fetched inst :: t.trace } <;> rfl

/-- A step that fetches no word has taken an interrupt or failed to fetch. -/
theorem unfetched_traps (h : fetchedWord s = none) :
    wp step (fun _ t => ∃ cause tval, t.core = trapEnd (s.core.sampled.trapped cause tval) ∧
      log t.trace = .trap cause tval :: log s.trace ∧
      (s.core.currentProgramCounter % 2 = 0 → cause ≠ exception Exec.instrMisalign))
      (fun _ _ => True) s := by
  have hend : ∀ {t : Machine β} {cause : Cause} {tval : BitVec 64},
      (s.core.currentProgramCounter % 2 = 0 → cause ≠ exception Exec.instrMisalign) →
      Trapped { s with core := s.core.sampled } t cause tval → wp (endStep {})
        (fun _ t => ∃ cause tval, t.core = trapEnd (s.core.sampled.trapped cause tval) ∧
          log t.trace = .trap cause tval :: log s.trace ∧
          (s.core.currentProgramCounter % 2 = 0 → cause ≠ exception Exec.instrMisalign))
        (fun _ _ => True) t := by
    intro t cause tval hne ht
    refine wp_mono (endStep_trapped rfl ht) (fun _ v hv => ?_) (fun _ _ _ => trivial)
    subst hv
    exact ⟨cause, tval, congrArg trapEnd ht.core, ht.log, hne⟩
  unfold step preExec
  simp only [wp_bind, wp_modifyCore, wp_getCore]
  cases hint : s.core.sampled.intToRaise with
  | some bits =>
    refine wp_mono (raiseTrap_trapped _ 0 _) (fun _ t ht => ?_) (fun _ _ _ => trivial)
    have hn : t.core.needTrap = true := by
      rw [ht.core]
      exact trapped_needTrap _ _ _
    rw [if_pos hn]
    refine hend (fun _ hcause => ?_) ht
    have hinterrupt : true = false := congrArg Cause.interrupt hcause
    cases hinterrupt
  | none =>
    have hclear : ¬ s.core.sampled.needTrap = true := Bool.false_ne_true
    simp only [wp_pure, if_neg hclear]
    unfold fetchDecodeExec
    simp only [wp_bind, wp_getCore, wp_ite]
    refine ⟨fun hodd => ?_, fun _ => ?_⟩
    · exact wp_mono (raiseTrap_trapped _ _ _)
        (fun _ t ht => hend (fun heven => absurd heven hodd) ht) (fun _ _ _ => trivial)
    · refine wp_mono (wp_and ((silent_instFetch _ 4).wp _) (wp_run _ _)) (fun r t ht => ?_)
        (fun _ _ _ => trivial)
      obtain ⟨hsilent, hfetch⟩ := ht
      simp only [wp_assertThat, wp_pure]
      refine ⟨fun _ => ⟨fun hcause => ?_, fun _ => trivial⟩, fun hok => ?_⟩
      · exact wp_mono (raiseTrap_after hsilent _ _)
          (fun _ u hu => hend (fun _ he => hcause (congrArg Cause.cause he)) hu)
          (fun _ _ _ => trivial)
      · obtain ⟨fb, w⟩ := r
        have hfb : fb = .accessOk := Decidable.of_not_not hok
        subst hfb
        have hword : fetch s = .ok (.accessOk, w) t := hfetch
        unfold fetchedWord at h
        rw [hint, hword] at h
        cases h

/-- The fetch has changed nothing but what loads change. -/
theorem decoding_silent (h : fetchedWord s = some inst) :
    (decoding s inst).core = s.core.sampled ∧ Quiet s.bus (decoding s inst).bus := by
  obtain ⟨-, t, hfetch⟩ := fetchedWord_some h
  have hsilent := wp_ok ((silent_instFetch s.core.currentProgramCounter 4).wp
    { s with core := s.core.sampled }) hfetch
  unfold decoding
  rw [hfetch]
  exact ⟨hsilent.core, hsilent.bus⟩

theorem decoding_log (h : fetchedWord s = some inst) :
    log (decoding s inst).trace = .fetched inst :: log s.trace := by
  obtain ⟨-, t, hfetch⟩ := fetchedWord_some h
  have hsilent := wp_ok ((silent_instFetch s.core.currentProgramCounter 4).wp
    { s with core := s.core.sampled }) hfetch
  unfold decoding
  rw [hfetch]
  exact congrArg (Event.fetched inst :: ·) hsilent.log

end Fetch

/-! ## The end of a step -/

/-- What an instruction that is done has done to the core, by its opcode. -/
def CodeEffect (inst : BitVec 32) (c c' : RV64Core) : Prop :=
  PlainEffect c c' ∨
    OpCode.ofBits (RVInst.opcode inst) = some .system ∧ SystemEffect inst c c'

/-- A step that returns has trapped, or its instruction is done. -/
inductive StepEffect (s t : Machine β) : Prop
  | trapped (cause : Cause) (tval : BitVec 64)
      (core : t.core = trapEnd (s.core.sampled.trapped cause tval))
      (raised : (cause, tval) ∈ traps t.trace)
  | done (inst : BitVec 32) (c : RV64Core) (l : StepLocals) (word : fetchedWord s = some inst)
      (effect : CodeEffect inst s.core.sampled c) (core : t.core = (c.advancePC l).retire)
      (fetched : inst ∈ fetches t.trace)

section StepEffect

variable {s m u : Machine β} {inst : BitVec 32} {flags : ExecFlags}

/-- The code of an instruction has raised a trap, is illegal, or is done. -/
inductive CodeOutcome (inst : BitVec 32) (m : Machine β) (flags : ExecFlags) (u : Machine β) :
    Prop
  | trapped (cause : Cause) (tval : BitVec 64) (trap : Trapped m u cause tval)
      (legal : flags.isInstrIllegal = false)
  | illegal (silent : Silent m u) (illegal : flags.isInstrIllegal = true)
  | done (effect : CodeEffect inst m.core u.core) (log : log u.trace = log m.trace)
      (legal : flags.isInstrIllegal = false)

theorem PlainOutcome.code (h : PlainOutcome m flags u) : CodeOutcome inst m flags u := by
  cases h with
  | trapped cause tval trap legal => exact .trapped cause tval trap legal
  | illegal silent hill => exact .illegal silent hill
  | done effect hlog legal => exact .done (.inl effect) hlog legal

theorem SystemOutcome.code (hop : OpCode.ofBits (RVInst.opcode inst) = some .system)
    (h : SystemOutcome inst m flags u) : CodeOutcome inst m flags u := by
  cases h with
  | trapped cause tval trap legal => exact .trapped cause tval trap legal
  | illegal silent hill => exact .illegal silent hill
  | done effect hlog legal => exact .done (.inr ⟨hop, effect⟩) hlog legal

theorem execute_outcome (inst : BitVec 32) (m : Machine β) :
    wp (execute inst) (CodeOutcome inst m) (fun _ _ => True) m := by
  unfold execute
  rw [wp_ite]
  refine ⟨fun _ => ?_, fun _ => ?_⟩
  · exact wp_mono (plain_execRvc inst m) (fun _ _ ho => PlainOutcome.code ho) (fun _ _ _ => trivial)
  · by_cases hop : OpCode.ofBits (RVInst.opcode inst) = some .system
    · rw [exec32_system hop]
      exact wp_mono (system_execSystem (opcode_system hop) m)
        (fun _ _ ho => SystemOutcome.code hop ho) (fun _ _ _ => trivial)
    · exact wp_mono (plain_exec32 inst hop m) (fun _ _ ho => PlainOutcome.code ho)
        (fun _ _ _ => trivial)

/-- A step that decodes `inst` and returns has trapped, or the instruction is done. -/
inductive Decoded (inst : BitVec 32) (s t : Machine β) : Prop
  | trapped (cause : Cause) (tval : BitVec 64)
      (core : t.core = trapEnd (s.core.sampled.trapped cause tval))
      (raised : (cause, tval) ∈ traps t.trace)
  | done (c : RV64Core) (l : StepLocals) (effect : CodeEffect inst s.core.sampled c)
      (core : t.core = (c.advancePC l).retire) (log : log t.trace = .fetched inst :: log s.trace)

theorem step_decoded (hw : fetchedWord s = some inst) :
    wp step (fun _ t => Decoded inst s t) (fun _ _ => True) s := by
  refine wp_congr (step_eq hw) ?_
  have hcore := (decoding_silent hw).1
  rw [wp_bind]
  refine wp_mono (execute_outcome inst _) (fun flags u ho => ?_) (fun _ _ _ => trivial)
  cases ho with
  | trapped cause tval trap legal =>
    refine wp_mono (endStep_trapped legal trap) (fun _ v hv => ?_) (fun _ _ _ => trivial)
    subst hv
    refine .trapped cause tval ?_ trap.raised
    rw [trap.core, hcore]
  | illegal silent hill =>
    refine wp_mono (endStep_illegal hill u) (fun _ v hv => ?_) (fun _ _ _ => trivial)
    obtain ⟨u', cause, tval, htrap, rfl⟩ := hv
    refine .trapped cause tval ?_ htrap.raised
    rw [htrap.core, silent.core, hcore]
  | done effect hlog legal =>
    refine wp_mono (endStep_legal legal u) (fun _ v hv => ?_) (fun _ _ _ => trivial)
    subst hv
    rw [hcore] at effect
    exact .done u.core _ effect rfl (hlog.trans (decoding_log hw))

theorem step_effect (s : Machine β) :
    wp step (fun _ t => StepEffect s t) (fun _ _ => True) s := by
  cases hw : fetchedWord s with
  | none =>
    refine wp_mono (unfetched_traps hw) (fun _ t ht => ?_) (fun _ _ _ => trivial)
    obtain ⟨cause, tval, hcore, hlog, -⟩ := ht
    exact .trapped cause tval hcore (mem_traps.mpr (hlog ▸ List.mem_cons_self))
  | some inst =>
    refine wp_mono (step_decoded hw) (fun _ t ht => ?_) (fun _ _ _ => trivial)
    cases ht with
    | trapped cause tval hcore hraised => exact .trapped cause tval hcore hraised
    | done c l effect hcore hlog =>
      refine .done inst c l hw effect hcore ?_
      rw [mem_fetches, hlog]
      exact List.mem_cons_self

end StepEffect

/-! ## Conformance -/

/-- The step has written `value` to `rd`, left `pc` and the memory of `b`, and returns unless the
reserved bits of the status stop it. -/
structure Retires (mem : β → M) (s : Machine β) (b : β) (rd : BitVec 5) (value pc : BitVec 64) :
    Prop where
  gpr : ∀ r, (final step s).core.gpr r = if r = rd ∧ r ≠ 0 then value else s.core.gpr r
  pc : (final step s).core.currentProgramCounter = pc
  memory : mem (final step s).bus = mem b
  returns : returns step s = statusBlankZero s.core.status

/-- The step has raised an exception, and changed no memory. -/
structure Excepts (mem : β → M) (s : Machine β) (cause : Cause) (tval : BitVec 64) : Prop where
  core : (final step s).core = trapEnd (s.core.sampled.trapped cause tval)
  gpr : (final step s).core.gpr = s.core.gpr
  memory : mem (final step s).bus = mem s.bus
  returns : returns step s = statusBlankZero s.core.status

/-- The code of an instruction of `len` bytes has this effect from `m`. -/
def Performs (len : BitVec 64) (x : Emu β ExecFlags) (m : Machine β) : Effect → Prop
  | .write rd value => x m = .ok retired { m with core := m.core.setGPR rd value }
  | .jump rd link target =>
    x m = .ok newPCSet
      { m with core := { m.core.setGPR rd link with currentProgramCounter := target } } ∨
    x m = .ok retired m ∧ rd = 0 ∧ target = m.core.currentProgramCounter + len
  | .load rd addr width unsigned => x m = loadGPR addr width.bytes (extend unsigned) rd m
  | .store addr width data => x m = (do memWrite addr width.bytes data; return retired) m
  | .breakpoint => x m = (do ebreak; return retired) m

section EndStep

variable {l : StepLocals} {m : Machine β}

omit [SlaveAtomicIOI β] in
theorem endStep_run (hl : l.flags.isInstrIllegal = false) (m : Machine β) :
    final (endStep l) m = { m with core := (m.core.advancePC l).retire } ∧
      returns (endStep l) m = statusBlankZero m.core.status := by
  have hstatus : (m.core.advancePC l).retire.status = m.core.status := by
    unfold RV64Core.advancePC
    split
    · rfl
    · split <;> rfl
  have hrun : endStep l m = (assertThat
      (statusBlankZero (m.core.advancePC l).retire.status = true) .statusBlank : Emu β Unit)
        { m with core := (m.core.advancePC l).retire } := by
    unfold endStep
    simp only [hl, Bool.false_eq_true, if_false]
    rw [bind_of_ok (modifyCore_run _ _), bind_of_ok (modifyCore_run _ _),
      bind_of_ok (getCore_run _)]
  rw [final_congr hrun, returns_congr hrun, hstatus]
  unfold assertThat
  cases statusBlankZero m.core.status <;> exact ⟨rfl, rfl⟩

/-- The reserved bits alone decide `statusBlankZero`. -/
theorem statusBlankZero_congr {v v' : BitVec 64}
    (h : ∀ i, i ≤ 4 ∧ i % 2 = 0 ∨ 23 ≤ i ∧ i < 32 ∨ 38 ≤ i ∧ i < 63 → v'.getLsbD i = v.getLsbD i) :
    statusBlankZero v' = statusBlankZero v := by
  have h3 : field v' MStatus.blank3 9 = field v MStatus.blank3 9 :=
    field_congr fun i h1 h2 => h i (.inr (.inl ⟨h1, h2⟩))
  have h4 : field v' MStatus.blank4 25 = field v MStatus.blank4 25 :=
    field_congr fun i h1 h2 => h i (.inr (.inr ⟨h1, h2⟩))
  have h0 : v'.getLsbD MStatus.blank0 = v.getLsbD MStatus.blank0 := h 0 (by decide)
  have h1 : v'.getLsbD MStatus.blank1 = v.getLsbD MStatus.blank1 := h 2 (by decide)
  have h2 : v'.getLsbD MStatus.blank2 = v.getLsbD MStatus.blank2 := h 4 (by decide)
  simp only [statusBlankZero, h0, h1, h2, h3, h4]

theorem trapped_blank (c : RV64Core) (cause : Cause) (tval : BitVec 64) :
    statusBlankZero (c.trapped cause tval).status = statusBlankZero c.status := by
  refine statusBlankZero_congr fun i hi => ?_
  unfold RV64Core.trapped
  dsimp only
  split
  · have hne : i ≠ SStatus.spp ∧ i ≠ SStatus.sie ∧ i ≠ SStatus.spie := by
      simp only [SStatus.spp, SStatus.sie, SStatus.spie]
      omega
    simp only [RV64Core.trapToS, getLsbD_setBit, hne.1, hne.2.1, hne.2.2, if_false]
  · have hne : i ≠ MStatus.mie ∧ i ≠ MStatus.mpie ∧
        ¬ (MStatus.mpp ≤ i ∧ i < MStatus.mpp + 2) := by
      simp only [MStatus.mie, MStatus.mpie, MStatus.mpp]
      omega
    simp only [RV64Core.trapToM, getLsbD_setBit, getLsbD_setField, hne.1, hne.2.1, hne.2.2,
      if_false]

theorem trapped_gpr (c : RV64Core) (cause : Cause) (tval : BitVec 64) :
    (c.trapped cause tval).gpr = c.gpr := by
  unfold RV64Core.trapped
  dsimp only
  split <;> rfl

theorem advancePC_gpr (c : RV64Core) (l : StepLocals) : (c.advancePC l).gpr = c.gpr := by
  unfold RV64Core.advancePC
  split
  · rfl
  · split <;> rfl

theorem setGPR_gpr (c : RV64Core) (rd : BitVec 5) (value : BitVec 64) (r : BitVec 5) :
    (c.setGPR rd value).gpr r = if r = rd ∧ r ≠ 0 then value else c.gpr r := by
  unfold RV64Core.setGPR
  by_cases hrd : rd = 0
  · rw [if_pos hrd, if_neg]
    rintro ⟨rfl, hr⟩
    exact hr hrd
  · rw [if_neg hrd]
    by_cases hr : r = rd
    · have hne : r ≠ 0 := fun h => hrd (hr ▸ h)
      simp only [hr, if_true, true_and]
      rw [if_pos hrd]
    · simp only [hr, if_false, false_and]

theorem setGPR_eq (c : RV64Core) (rd : BitVec 5) (value : BitVec 64) :
    c.setGPR rd value = { c with gpr := fun r => if r = rd ∧ r ≠ 0 then value else c.gpr r } := by
  have hgpr : (c.setGPR rd value).gpr = fun r => if r = rd ∧ r ≠ 0 then value else c.gpr r :=
    funext (setGPR_gpr c rd value)
  rw [← hgpr]
  unfold RV64Core.setGPR
  split <;> rfl

/-- The core behind a step whose instruction has written `value` to `rd` and goes on at `pc`: the
counters, the sampled interrupt lines and the mode that the last trap or return has left are all
that differs besides. -/
def retiredAt (c : RV64Core) (rd : BitVec 5) (value pc : BitVec 64) : RV64Core :=
  { c with
    gpr := fun r => if r = rd ∧ r ≠ 0 then value else c.gpr r
    currentProgramCounter := pc
    minstret := c.minstret + 1
    csrMCycleNum := c.csrMCycleNum + 1
    csrIntPending := c.sampled.csrIntPending
    currentPrivMode := c.nextPrivMode
    needTrap := false }

theorem retiredAt_jump (c : RV64Core) (rd : BitVec 5) (value pc : BitVec 64)
    (hl : l.flags.isNewPCSet = true) :
    (RV64Core.advancePC { c.sampled.setGPR rd value with currentProgramCounter := pc } l).retire =
      retiredAt c rd value pc := by
  rw [setGPR_eq]
  simp only [RV64Core.advancePC, RV64Core.retire, hl, if_true]
  rfl

theorem retiredAt_fall (c : RV64Core) (rd : BitVec 5) (value : BitVec 64)
    (hl : l.flags.isNewPCSet = false) :
    ((c.sampled.setGPR rd value).advancePC l).retire =
      retiredAt c rd value (c.currentProgramCounter + (if l.isCompressedInst then 2 else 4)) := by
  rw [setGPR_eq]
  simp only [RV64Core.advancePC, RV64Core.retire, hl, Bool.false_eq_true, if_false]
  rfl

end EndStep

section Performs

variable {mem : β → M} {s t : Machine β} {b : β} {l : StepLocals} {inst : BitVec 32}
  {rd : BitVec 5} {value pc len : BitVec 64} {cause : Cause} {tval : BitVec 64}

theorem retires_of_end (hstep : step s = endStep l t) (hl : l.flags.isInstrIllegal = false)
    (hgpr : ∀ r, t.core.gpr r = if r = rd ∧ r ≠ 0 then value else s.core.gpr r)
    (hpc : (t.core.advancePC l).currentProgramCounter = pc) (hmem : mem t.bus = mem b)
    (hstatus : t.core.status = s.core.status) : Retires mem s b rd value pc := by
  obtain ⟨hfinal, hreturns⟩ := endStep_run hl t
  rw [← final_congr hstep] at hfinal
  rw [← returns_congr hstep, hstatus] at hreturns
  refine ⟨fun r => ?_, ?_, ?_, hreturns⟩
  · rw [hfinal, ← hgpr r]
    exact congrFun (advancePC_gpr t.core l) r
  · rw [hfinal]
    exact hpc
  · rw [hfinal]
    exact hmem

theorem excepts_of_end (hstep : step s = endStep l t) (hl : l.flags.isInstrIllegal = false)
    (htrap : t.core = s.core.sampled.trapped cause tval) (hmem : mem t.bus = mem s.bus) :
    Excepts mem s cause tval := by
  obtain ⟨hfinal, hreturns⟩ := endStep_run hl t
  rw [← final_congr hstep] at hfinal
  rw [← returns_congr hstep, htrap, trapped_blank] at hreturns
  have hneed : t.core.needTrap = true := by
    rw [htrap]
    exact trapped_needTrap _ _ _
  have hcore : (final step s).core = trapEnd (s.core.sampled.trapped cause tval) := by
    rw [hfinal, ← htrap]
    exact trapEnd_eq hneed l
  refine ⟨hcore, ?_, ?_, hreturns⟩
  · rw [hcore]
    exact trapped_gpr s.core.sampled cause tval
  · rw [hfinal]
    exact hmem

/-- What a step leaves whose code has run to its end. -/
theorem step_end (h : fetchedWord s = some inst) {flags : ExecFlags} {u : Machine β}
    (hrun : execute inst (decoding s inst) = .ok flags u) (hl : flags.isInstrIllegal = false) :
    final step s = { u with core := (u.core.advancePC
        { inst := inst, isCompressedInst := isCompressed inst, flags := flags }).retire } ∧
      returns step s = statusBlankZero u.core.status := by
  have hstep := (step_eq h).trans (bind_of_ok hrun)
  rw [final_congr hstep, returns_congr hstep]
  exact endStep_run hl u

/-- The PC behind an instruction that falls through. -/
theorem advancePC_fall {c : RV64Core} {l : StepLocals} (hn : c.needTrap = false)
    (hl : l.flags.isNewPCSet = false) :
    (c.advancePC l).currentProgramCounter =
      c.currentProgramCounter + (if l.isCompressedInst then 2 else 4) := by
  simp only [RV64Core.advancePC, hn, hl, Bool.false_eq_true, if_false]

theorem setGPR_pc (c : RV64Core) (rd : BitVec 5) (value : BitVec 64) :
    (c.setGPR rd value).currentProgramCounter = c.currentProgramCounter := by
  unfold RV64Core.setGPR
  split <;> rfl

theorem setGPR_status (c : RV64Core) (rd : BitVec 5) (value : BitVec 64) :
    (c.setGPR rd value).status = c.status := by
  unfold RV64Core.setGPR
  split <;> rfl

/-- A step that fetched `inst`, of `len` bytes, and ran its code to an end. -/
structure Ran (len : BitVec 64) (s : Machine β) (inst : BitVec 32) (flags : ExecFlags)
    (t : Machine β) : Prop where
  word : fetchedWord s = some inst
  length : len = if isCompressed inst then 2 else 4
  run : execute inst (decoding s inst) = .ok flags t

namespace Ran

variable {flags : ExecFlags}

theorem step_eq (h : Ran len s inst flags t) : step s =
    endStep { inst := inst, isCompressedInst := isCompressed inst, flags := flags } t := by
  rw [Conformance.step_eq h.word, bind_of_ok h.run]

/-- It has written a register and falls through. -/
theorem retires (h : Ran len s inst retired t) (hcore : t.core = s.core.sampled.setGPR rd value)
    (hmem : mem t.bus = mem b) :
    Retires mem s b rd value (s.core.currentProgramCounter + len) := by
  have hn : t.core.needTrap = false := by
    rw [hcore, setGPR_needTrap]
    rfl
  refine retires_of_end h.step_eq rfl (fun r => ?_) ?_ hmem ?_
  · rw [hcore]
    exact setGPR_gpr s.core.sampled rd value r
  · rw [advancePC_fall hn rfl, hcore, setGPR_pc, h.length]
    rfl
  · rw [hcore, setGPR_status]
    rfl

/-- It has written a link and set the PC. -/
theorem jumps (h : Ran len s inst newPCSet t)
    (hcore : t.core = { s.core.sampled.setGPR rd value with currentProgramCounter := pc })
    (hmem : mem t.bus = mem b) : Retires mem s b rd value pc := by
  have hn : t.core.needTrap = false := by
    rw [hcore]
    exact setGPR_needTrap s.core.sampled rd value
  refine retires_of_end h.step_eq rfl (fun r => ?_) ?_ hmem ?_
  · rw [hcore]
    exact setGPR_gpr s.core.sampled rd value r
  · have hset : (newPCSet).isNewPCSet = true := rfl
    simp only [RV64Core.advancePC, hn, hset, Bool.false_eq_true, if_false, if_true]
    rw [hcore]
  · rw [hcore]
    exact setGPR_status s.core.sampled rd value

/-- It has raised an exception. -/
theorem excepts (h : Ran len s inst retired t)
    (hcore : t.core = s.core.sampled.trapped cause tval) (hmem : mem t.bus = mem s.bus) :
    Excepts mem s cause tval := excepts_of_end h.step_eq rfl hcore hmem

end Ran

/-- A step whose instruction aborts. -/
theorem step_abort (h : fetchedWord s = some inst) {e : Assertion}
    (hrun : execute inst (decoding s inst) = .error e t) : step s = .error e t := by
  rw [step_eq h, run_bind, hrun]

end Performs

end NextEmu.Simple.Conformance
