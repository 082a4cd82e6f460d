import NextEmu.Simple.Refusal

/-!
# Illegal instructions

Which fetched words make a step raise the exception for an illegal instruction, against the
words that are no instruction or one that is not permitted. The two differ on words of
JALR, OP-IMM and SYSTEM only, and only on those that `Deviates` lists.
-/

namespace NextEmu.Simple.IllegalInstructions

open NextEmu.Lib.AbortState NextEmu.Lib.BitField NextEmu.Lib.RiscV NextEmu.Sdk
open Conformance Encodings Outcomes PreciseTraps Refusal

variable {β : Type} [SlaveAtomicIOI β]

/-! ## What is illegal -/

/-- SRET is for S mode, unless TSR is set, and the modes above it. -/
def SretAllowed (c : RV64Core) : Prop :=
  ¬ c.currentPrivMode.level < PrivMode.sMode.level ∧
    ¬ (c.currentPrivMode = .sMode ∧ c.status.getLsbD MStatus.tsr = true)

/-- The instruction is permitted in the mode of the core. -/
def Permitted (c : RV64Core) : Inst32 → Prop
  | .system .mret => c.currentPrivMode = .mMode
  | .system .sret => SretAllowed c
  | .system (.sfenceVma _ _) => SfenceAllowed c
  | .system (.csr op _ operand number) => CsrAllowed c op operand number
  | _ => True

/-- The word is that of no instruction, or that of one that is not permitted. -/
def Illegal (c : RV64Core) (w : BitVec 32) : Prop :=
  ¬ Encoded w ∨ ∃ i : Inst32, i.encode = w ∧ ¬ Permitted c i

/-- The step raises the exception. -/
def RaisesIllegal (s : Machine β) : Prop :=
  ∃ tval, illegals (final step s).trace = tval :: illegals s.trace

/-- Behind the fetch the step has changed nothing but the trap state. -/
structure OnlyTraps (s : Machine β) (w : BitVec 32) : Prop where
  machine : final step s = { decoding s w with
    core := trapEnd (s.core.sampled.trapped (exception Exec.illegalInstr) (w.setWidth 64))
    trace := .trap (exception Exec.illegalInstr) (w.setWidth 64) :: (decoding s w).trace }
  core : TrappedToS s.core (final step s).core (exception Exec.illegalInstr) ∨
    TrappedToM s.core (final step s).core (exception Exec.illegalInstr)
  memory : ∀ {M : Type} {mem : β → M}, DataView mem → mem (final step s).bus = mem s.bus

/-- The exception is raised exactly for the illegal words, and changes no more than it has to. -/
def Exact (s : Machine β) (w : BitVec 32) : Prop :=
  (RaisesIllegal s ↔ Illegal s.core.sampled w) ∧ (RaisesIllegal s → OnlyTraps s w)

/-! ## Where the core deviates -/

/-- The words on which the core and the manual differ. -/
def Deviates (c : RV64Core) (w : BitVec 32) : OpCode → Prop
  -- `funct3` is not looked at
  | .jalr => RVInst.funct3 w ≠ 0b000
  -- SLLI with a negative immediate passes the test `imm12 >= 64`
  | .opImm => RVInst.funct3 w = 0b001 ∧ (field w 20 12).msb = true
  | .system => RVInst.funct3 w = 0b000 ∧
    -- the `else` of SRET and WFI is missing
    (RVInst.funct7 w = 0b0001000 ∧ ¬ NoRegs w ∨
    -- `rd` of SFENCE.VMA is not looked at
    RVInst.funct7 w = 0b0001001 ∧ RVInst.rd w ≠ 0 ∧ SfenceAllowed c ∨
    -- TSR also stops an SRET of a mode above S
    w = SystemInst.sret.encode ∧ SretAllowed c ∧ c.status.getLsbD MStatus.tsr = true)
  | _ => False

section Deviates

variable {c : RV64Core} {w : BitVec 32} {k : OpCode}

/-- Only system instructions are not always permitted. -/
theorem illegal_plain (hop : OpCode.ofBits (RVInst.opcode w) = some k) (hk : k ∈ majors)
    (hs : k ≠ .system) : Illegal c w ↔ ¬ Fits w k := by
  have hlui : k ≠ .lui := by
    rintro rfl
    exact absurd hk (by decide)
  have hauipc : k ≠ .auipc := by
    rintro rfl
    exact absurd hk (by decide)
  rw [← encoded_iff hop hlui hauipc]
  refine ⟨fun h => h.elim id fun ⟨i, hi, hp⟩ => ?_, .inl⟩
  have hmajor := major_of_encode hop hi
  cases i with
  | system i => exact absurd hmajor.symm hs
  | _ => exact absurd trivial hp

theorem illegal_system (hop : OpCode.ofBits (RVInst.opcode w) = some .system) :
    Illegal c w ↔ ¬ ∃ i, systemOf w = some i ∧ Permitted c (.system i) := by
  have hone : ∀ i : Inst32, i.encode = w → ∃ j, i = .system j ∧ systemOf w = some j := by
    intro i hi
    have hmajor := major_of_encode hop hi
    cases i with
    | system j => exact ⟨j, rfl, hi ▸ systemOf_encode j⟩
    | comp i => cases i <;> cases hmajor
    | mem i => cases i <;> cases hmajor
    | _ => cases hmajor
  constructor
  · rintro h ⟨i, hi, hp⟩
    have hw : (Inst32.system i).encode = w := encode_systemOf hop hi
    rcases h with h | ⟨i', hi', hp'⟩
    · exact h ⟨_, hw⟩
    · obtain ⟨j, rfl, hj⟩ := hone i' hi'
      cases Option.some.inj (hi.symm.trans hj)
      exact hp' hp
  · intro h
    cases hi : systemOf w with
    | none =>
      refine .inl fun ⟨i, hi'⟩ => ?_
      obtain ⟨j, -, hj⟩ := hone i hi'
      rw [hi] at hj
      cases hj
    | some i => exact .inr ⟨.system i, encode_systemOf hop hi, fun hp => h ⟨i, hi, hp⟩⟩

/-- What is legal under `FUNCT3_PRIV`. -/
theorem legal_priv (hf3 : RVInst.funct3 w = 0) :
    (∃ i, systemOf w = some i ∧ Permitted c (.system i)) ↔
      RVInst.funct7 w = 0b0001001 ∧ RVInst.rd w = 0 ∧ SfenceAllowed c ∨
      RVInst.funct7 w ≠ 0b0001001 ∧ NoRegs w ∧
        (field w 20 12 = 0x000 ∨ field w 20 12 = 0x001 ∨ field w 20 12 = 0x102 ∧ SretAllowed c ∨
          field w 20 12 = 0x105 ∨ field w 20 12 = 0x302 ∧ c.currentPrivMode = .mMode) := by
  unfold systemOf
  rw [if_pos hf3]
  constructor
  · rintro ⟨i, hi, hp⟩
    split at hi
    · rename_i hf7
      split at hi
      · rename_i hrd
        cases hi
        exact .inl ⟨hf7, hrd, hp⟩
      · cases hi
    · rename_i hf7
      split at hi
      · rename_i hregs
        refine .inr ⟨hf7, hregs, ?_⟩
        split at hi
        case h_1 h => exact .inl h
        case h_2 h => exact .inr (.inl h)
        case h_3 h =>
          cases hi
          exact .inr (.inr (.inl ⟨h, hp⟩))
        case h_4 h => exact .inr (.inr (.inr (.inl h)))
        case h_5 h =>
          cases hi
          exact .inr (.inr (.inr (.inr ⟨h, hp⟩)))
        case h_6 => cases hi
      · cases hi
  · rintro (⟨hf7, hrd, hp⟩ | ⟨hf7, hregs, h⟩)
    · rw [if_pos hf7, if_pos hrd]
      exact ⟨_, rfl, hp⟩
    · have hregs : RVInst.rs1 w = 0 ∧ RVInst.rd w = 0 := hregs
      rw [if_neg hf7, if_pos hregs]
      rcases h with h | h | ⟨h, hp⟩ | h | ⟨h, hp⟩
      · exact ⟨.ecall, by rw [h]; rfl, trivial⟩
      · exact ⟨.ebreak, by rw [h]; rfl, trivial⟩
      · exact ⟨.sret, by rw [h]; rfl, hp⟩
      · exact ⟨.wfi, by rw [h]; rfl, trivial⟩
      · exact ⟨.mret, by rw [h]; rfl, hp⟩

/-- The same in the two fields that the core looks at. -/
theorem imm_iff (f7 : BitVec 7) (r2 : BitVec 5) :
    field w 20 12 = f7 ++ r2 ↔ RVInst.funct7 w = f7 ∧ RVInst.rs2 w = r2 := by
  rw [imm_eq]
  constructor
  · intro h
    have hhigh : ∀ (a : BitVec 7) (b : BitVec 5), field (a ++ b) 5 7 = a := fun a b =>
      (field_high _ _ (by decide)).trans (field_all _)
    have hlow : ∀ (a : BitVec 7) (b : BitVec 5), field (a ++ b) 0 5 = b := fun a b =>
      (field_low _ _ (by decide)).trans (field_all _)
    constructor
    · rw [← hhigh (RVInst.funct7 w) (RVInst.rs2 w), h, hhigh]
    · rw [← hlow (RVInst.funct7 w) (RVInst.rs2 w), h, hlow]
  · rintro ⟨h7, h2⟩
    rw [h7, h2]

/-- The word of SRET. -/
theorem sret_iff (hop : OpCode.ofBits (RVInst.opcode w) = some .system)
    (hf3 : RVInst.funct3 w = 0) : w = SystemInst.sret.encode ↔
      NoRegs w ∧ RVInst.funct7 w = 0b0001000 ∧ RVInst.rs2 w = 0b00010 := by
  constructor
  · rintro rfl
    exact ⟨⟨rs1_iType .., rd_iType ..⟩, by decide, by decide⟩
  · rintro ⟨⟨hrs1, hrd⟩, h7, h2⟩
    have hw := eq_iType hop
    rw [(imm_iff _ _).mpr ⟨h7, h2⟩, hrs1, hf3, hrd] at hw
    exact hw

/-- Under `FUNCT3_PRIV` the core accepts what is legal, but for its deviations. -/
theorem priv_exact (hop : OpCode.ofBits (RVInst.opcode w) = some .system)
    (hf3 : RVInst.funct3 w = 0) :
    (PrivAccepts c w ↔ ∃ i, systemOf w = some i ∧ Permitted c (.system i)) ↔
      ¬ Deviates c w .system := by
  have h000 : (0x000 : BitVec 12) = 0b0000000#7 ++ 0b00000#5 := by decide
  have h001 : (0x001 : BitVec 12) = 0b0000000#7 ++ 0b00001#5 := by decide
  have h102 : (0x102 : BitVec 12) = 0b0001000#7 ++ 0b00010#5 := by decide
  have h105 : (0x105 : BitVec 12) = 0b0001000#7 ++ 0b00101#5 := by decide
  have h302 : (0x302 : BitVec 12) = 0b0011000#7 ++ 0b00010#5 := by decide
  rw [legal_priv hf3]
  unfold Deviates PrivAccepts
  rw [sret_iff hop hf3, h000, h001, h102, h105, h302, imm_iff, imm_iff, imm_iff, imm_iff, imm_iff]
  unfold SretDone SretAllowed
  rw [hf3]
  by_cases h9 : RVInst.funct7 w = 0b0001001#7
  · by_cases hf : SfenceAllowed c
    · simp [h9, hf]
    · simp [h9, hf]
  by_cases h8 : RVInst.funct7 w = 0b0001000#7
  · by_cases hregs : NoRegs w
    · by_cases htsr : c.status.getLsbD MStatus.tsr = true
      · by_cases h2 : RVInst.rs2 w = 0b00010#5
        · simp [h8, hregs, htsr, h2]
        · simp [h8, hregs, htsr, h2]
      · simp [h8, hregs, htsr]
    · simp [h8, hregs]
  by_cases h0 : RVInst.funct7 w = 0b0000000#7
  · simp [h0]
  by_cases h24 : RVInst.funct7 w = 0b0011000#7
  · simp [h24, and_left_comm, and_assoc]
  simp [h0, h8, h9, h24]

theorem system_exact (hop : OpCode.ofBits (RVInst.opcode w) = some .system) :
    (SystemAccepts c w ↔ ∃ i, systemOf w = some i ∧ Permitted c (.system i)) ↔
      ¬ Deviates c w .system := by
  by_cases hf3 : RVInst.funct3 w = 0
  · have hpriv : SystemAccepts c w ↔ PrivAccepts c w := by
      refine ⟨fun h => ?_, fun h => .inl ⟨hf3, h⟩⟩
      rcases h with h | ⟨op, hcsr, -⟩
      · exact h.2
      · rw [hf3] at hcsr
        cases hcsr
    rw [hpriv]
    exact priv_exact hop hf3
  · have hnot : ¬ Deviates c w .system := fun h => hf3 h.1
    refine iff_of_true ⟨fun h => ?_, fun h => ?_⟩ hnot
    · rcases h with h | ⟨op, hcsr, h⟩
      · exact absurd h.1 hf3
      · refine ⟨.csr op (RVInst.rd w) (RVInst.rs1 w) (field w 20 12), ?_, h⟩
        unfold systemOf
        rw [if_neg hf3, hcsr]
        rfl
    · obtain ⟨i, hi, hp⟩ := h
      unfold systemOf at hi
      rw [if_neg hf3] at hi
      obtain ⟨op, hcsr, rfl⟩ := Option.map_eq_some_iff.mp hi
      exact .inr ⟨op, hcsr, hp⟩

/-- The decoder takes the negative immediates of SLLI. -/
theorem decode_negative (h : RVInst.funct3 w = 0b001 ∧ (field w 20 12).msb = true) :
    decodeOpImm w ≠ none := by
  have hneg : (field w 20 12).toInt < 0 := BitVec.toInt_neg_of_msb_true h.2
  have hsle : BitVec.sle 64 ((field w 20 12).signExtend 64) = false := by
    rw [sle_imm]
    exact decide_eq_false (by omega)
  unfold decodeOpImm RVInst.iImm12
  rw [h.1]
  show (if BitVec.sle 64 _ = true then none else some _) ≠ none
  rw [hsle]
  exact Option.some_ne_none _

/-- The core accepts the legal words and no others, but for its deviations. -/
theorem accepts_exact (hop : OpCode.ofBits (RVInst.opcode w) = some k) (hk : k ∈ majors) :
    (Accepts c w k ↔ ¬ Illegal c w) ↔ ¬ Deviates c w k := by
  by_cases hs : k = .system
  · subst hs
    rw [illegal_system hop, Classical.not_not]
    exact system_exact hop
  · rw [illegal_plain hop hk hs, Classical.not_not]
    cases k with
    | jalr => exact ⟨fun h hd => hd (h.mp trivial), fun h => ⟨fun _ => Classical.not_not.mp h,
        fun _ => trivial⟩⟩
    | opImm =>
      refine ⟨fun h hd => (h.mp (decode_negative hd)).2 hd, fun h => ⟨fun hd => ⟨hd, h⟩, ?_⟩⟩
      exact fun hf => hf.1
    | system => exact absurd rfl hs
    | _ => exact ⟨fun _ hd => hd, fun _ => Iff.rfl⟩

end Deviates

/-! ## The end of the step -/

section Step

variable {s m : Machine β} {w : BitVec 32} {l : StepLocals}

omit [SlaveAtomicIOI β] in
theorem endStep_refused (hl : l.flags.isInstrIllegal = true) (hn : m.core.needTrap = false) :
    final (endStep l) m = { m with
      core := trapEnd (m.core.trapped (exception Exec.illegalInstr) (l.inst.setWidth 64))
      trace := .trap (exception Exec.illegalInstr) (l.inst.setWidth 64) :: m.trace } := by
  have hok : (exception Exec.illegalInstr).cause ≠ Exec.ok := by decide
  have hfetch : (exception Exec.illegalInstr).cause ≠ Exec.instrPgfault := by decide
  have hend := trapEnd_eq (trapped_needTrap m.core (exception Exec.illegalInstr)
    (l.inst.setWidth 64)) l
  unfold final endStep
  simp only [hl, if_true]
  rw [bind_of_ok (raiseTrap_run hn hok hfetch _), bind_of_ok (modifyCore_run _ _),
    bind_of_ok (modifyCore_run _ _), bind_of_ok (getCore_run _), ← hend]
  unfold assertThat
  split
  · rename_i h
    split at h <;> cases h
    rfl
  · rename_i h
    split at h <;> cases h
    rfl

theorem uncompressed {k : OpCode} (hop : OpCode.ofBits (RVInst.opcode w) = some k) :
    isCompressed w = false := by
  unfold isCompressed
  rw [ofBits_eq hop]
  cases k <;> rfl

theorem decoding_lawful (h : fetchedWord s = some w) :
    illegals (decoding s w).trace = illegals s.trace := by
  have hlog := congrArg traps (decoding_log h)
  rw [traps_log] at hlog
  have hfetch : traps (Event.fetched w :: log s.trace) = traps s.trace := traps_log s.trace
  unfold illegals
  rw [hlog, hfetch]

/-- A step of which the code refuses the instruction. -/
theorem refused_traps (h : fetchedWord s = some w) (hlen : isCompressed w = false)
    (hx : Refused (exec32 w) (decoding s w)) : RaisesIllegal s ∧ OnlyTraps s w := by
  obtain ⟨hcore, hquiet⟩ := decoding_silent h
  have hclear : (decoding s w).core.needTrap = false := by
    rw [hcore]
    rfl
  have hrun : execute w (decoding s w) = .ok instrIllegal (decoding s w) := by
    unfold execute
    rw [hlen]
    exact hx
  have hstep := step_eq h
  rw [bind_of_ok hrun] at hstep
  have hfinal := final_congr hstep
  rw [endStep_refused rfl hclear, hcore] at hfinal
  refine ⟨⟨w.setWidth 64, ?_⟩, hfinal, ?_, fun hmem => ?_⟩
  · rw [hfinal]
    show w.setWidth 64 :: illegals (decoding s w).trace = _
    rw [decoding_lawful h]
  · rw [hfinal]
    exact trapEnd_frame s.core _ _
  · rw [hfinal]
    exact hmem.quiet hquiet

/-- One of which the code accepts it. -/
theorem accepted_raises (h : fetchedWord s = some w) (hlen : isCompressed w = false)
    (hx : Accepted (exec32 w) (decoding s w)) : ¬ RaisesIllegal s := by
  have hlawful : illegals (final step s).trace = illegals s.trace := by
    rw [← decoding_lawful h]
    have hstep := step_eq h
    have hexec : execute w = (exec32 w : Emu β ExecFlags) := by
      unfold execute
      rw [hlen]
      rfl
    rw [hexec, run_bind] at hstep
    cases hrun : exec32 w (decoding s w) with
    | ok flags t =>
      rw [hrun] at hstep
      obtain ⟨hl, ht⟩ := wp_ok hx hrun
      have hend := (endStep_run (l := { inst := w, flags := flags }) hl t).1
      rw [hlen] at hstep
      have hfinal := (final_congr hstep).trans hend
      rw [hfinal]
      exact ht
    | error e t =>
      rw [hrun] at hstep
      have ht := wp_error hx hrun
      unfold final
      rw [hstep]
      exact ht
  rintro ⟨tval, hraised⟩
  rw [hlawful] at hraised
  exact absurd hraised (List.cons_ne_self _ _).symm

end Step

/-! ## Exactness -/

/-- A fetched word raises the exception exactly when it is illegal, unless it deviates. -/
theorem illegal_exact (s : Machine β) (w : BitVec 32) (h : fetchedWord s = some w) (k : OpCode)
    (hop : OpCode.ofBits (RVInst.opcode w) = some k) (hk : k ∈ majors) :
    Exact s w ↔ ¬ Deviates s.core.sampled w k := by
  have hlen := uncompressed hop
  have hdecides := decides_exec32 hop hk (decoding s w)
  rw [(decoding_silent h).1] at hdecides
  have hraises : RaisesIllegal s ↔ ¬ Accepts s.core.sampled w k :=
    ⟨fun hr ha => accepted_raises h hlen (hdecides.accepted ha) hr,
      fun ha => (refused_traps h hlen (hdecides.refused ha)).1⟩
  have hframe : RaisesIllegal s → OnlyTraps s w := fun hr =>
    (refused_traps h hlen (hdecides.refused (hraises.mp hr))).2
  rw [← accepts_exact hop hk]
  constructor
  · rintro ⟨hexact, -⟩
    rw [← hexact, hraises, Classical.not_not]
  · intro ha
    refine ⟨?_, hframe⟩
    rw [hraises, ha, Classical.not_not]

/-- A machine with one instruction at the start of the memory, as bytes. -/
def wordMachine (mode : PrivMode) (b0 b1 b2 b3 : BitVec 8) : Machine (AddrBus Empty) :=
  Machine.start { (default : RV64Core) with
    currentProgramCounter := 0x80000000, nextPrivMode := mode }
    (Translation.memoryBus fun a =>
      if a = 0 then b0 else if a = 1 then b1 else if a = 2 then b2 else if a = 3 then b3 else 0)

/-- An MRET in U mode. -/
theorem illegal_exact_mret : Exact (wordMachine .uMode 0x73 0x00 0x20 0x30) 0x30200073 := by
  refine (illegal_exact _ _ (by decide +kernel) .system (by decide) (by decide)).mpr ?_
  rintro ⟨-, h | h | h⟩
  · exact absurd h.1 (by decide)
  · exact absurd h.1 (by decide)
  · exact absurd h.1 (by decide)

/-- A JALR whose `funct3` is not zero is executed. -/
theorem jalr_executed : fetchedWord (wordMachine .mMode 0x67 0x10 0x00 0x00) = some 0x00001067 ∧
    ¬ Exact (wordMachine .mMode 0x67 0x10 0x00 0x00) 0x00001067 := by
  refine ⟨by decide +kernel, fun h => ?_⟩
  have hnot : ¬ Encoded 0x00001067 := by
    rw [encoded_iff (k := .jalr) (by decide) (by decide) (by decide)]
    show ¬ RVInst.funct3 0x00001067 = 0b000
    decide
  obtain ⟨tval, hraised⟩ := h.1.mpr (.inl hnot)
  have hnone : illegals (final step (wordMachine .mMode 0x67 0x10 0x00 0x00)).trace = [] := by
    decide +kernel
  rw [hnone] at hraised
  cases hraised

end NextEmu.Simple.IllegalInstructions
