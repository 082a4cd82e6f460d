import NextEmu.Lib.RiscVEncoding
import NextEmu.Simple.EvenJumps
import NextEmu.Simple.LoadStore

/-!
# Jumps and branches

JAL, JALR and the conditional branches against the manual: the register of the link,
the target, and everything else as it was. The code of JALR clears bit 0 of the
immediate and not of the sum, so that an odd base makes an odd target, for which it
raises an exception.
-/

namespace NextEmu.Simple.ControlTransfer

open NextEmu.Lib.AbortState NextEmu.Lib.BitField NextEmu.Lib.RiscV NextEmu.Sdk
open Conformance EvenJumps IntegerConformance Outcomes Translation

/-! ## The instructions -/

/-- The offsets of `jal` and `branch` count halfwords. -/
inductive Transfer
  | jal (rd : Reg) (imm : BitVec 20)
  | jalr (rd rs1 : Reg) (imm : BitVec 12)
  | branch (op : BranchOp) (rs1 rs2 : Reg) (imm : BitVec 12)
  deriving DecidableEq, Repr

namespace Transfer

def encode : Transfer → BitVec 32
  | jal rd imm => jType imm rd 0b1101111
  | jalr rd rs1 imm => iType imm rs1 0b000 rd 0b1100111
  | branch op rs1 rs2 imm => bType imm rs2 rs1 op.funct3 0b1100011

/-- The register of the link; a branch has none. -/
def rd : Transfer → Reg
  | jal rd _ | jalr rd _ _ => rd
  | branch .. => 0

/-- Where the instruction at `pc` goes on. -/
def target (x : Reg → BitVec 64) (pc : BitVec 64) : Transfer → BitVec 64
  | jal _ imm => pc + (imm ++ 0#1).signExtend 64
  | jalr _ rs1 imm => (x rs1 + imm.signExtend 64) &&& ~~~ 1
  | branch op rs1 rs2 imm =>
    if op.taken (x rs1) (x rs2) then pc + (imm ++ 0#1).signExtend 64 else pc + 4

/-- The base of a JALR is even. -/
def EvenBase (x : Reg → BitVec 64) : Transfer → Prop
  | jalr _ rs1 _ => x rs1 % 2 = 0
  | _ => True

end Transfer

section Decode

variable {β : Type} [SlaveAtomicIOI β]

theorem jImm_jType (imm : BitVec 20) (rd : BitVec 5) (opcode : BitVec 7) :
    RVInst.jImm (jType imm rd opcode) = (imm ++ 0#1).signExtend 64 := by
  unfold RVInst.jImm jType uType
  refine BitVec.eq_of_getLsbD_eq fun i hi => ?_
  simp only [BitVec.getLsbD_signExtend, BitVec.getLsbD_or, BitVec.getLsbD_shiftLeft,
    BitVec.getLsbD_setWidth, BitVec.getLsbD_extractLsb', BitVec.msb_eq_getLsbD_last,
    BitVec.getLsbD_append]
  grind

theorem bImm_bType (imm : BitVec 12) (rs2 rs1 : BitVec 5) (funct3 : BitVec 3)
    (opcode : BitVec 7) :
    RVInst.bImm (bType imm rs2 rs1 funct3 opcode) = (imm ++ 0#1).signExtend 64 := by
  unfold RVInst.bImm bType rType
  refine BitVec.eq_of_getLsbD_eq fun i hi => ?_
  simp only [BitVec.getLsbD_signExtend, BitVec.getLsbD_or, BitVec.getLsbD_shiftLeft,
    BitVec.getLsbD_setWidth, BitVec.getLsbD_extractLsb', BitVec.msb_eq_getLsbD_last,
    BitVec.getLsbD_append]
  grind

theorem encode_opcode (i : Transfer) : isCompressed i.encode = false ∧
    OpCode.ofBits (RVInst.opcode i.encode) = some (match i with
      | .jal .. => .jal
      | .jalr .. => .jalr
      | .branch .. => .branch) := by
  unfold isCompressed
  cases i with
  | jal rd imm => rw [Transfer.encode, jType, opcode_uType]; exact ⟨rfl, rfl⟩
  | jalr rd rs1 imm => rw [Transfer.encode, iType_eq, opcode_rType]; exact ⟨rfl, rfl⟩
  | branch op rs1 rs2 imm => rw [Transfer.encode, bType, opcode_rType]; exact ⟨rfl, rfl⟩

end Decode

/-! ## Targets -/

section Targets

variable {base imm : BitVec 64}

theorem clear_bit (v : BitVec 64) : v &&& ~~~ 1 = v - v % 2 :=
  and_highMask (k := 1) (by decide) v

/-- For an even base the two ways to clear bit 0 agree. -/
theorem clear_addend (h : base % 2 = 0) : base + (imm &&& ~~~ 1) = (base + imm) &&& ~~~ 1 := by
  have hmod : (base + imm) % 2 = imm % 2 := by
    rw [even_iff] at h
    refine BitVec.eq_of_toNat_eq ?_
    rw [BitVec.toNat_umod, BitVec.toNat_umod, BitVec.toNat_add]
    have h2 : (2 : BitVec 64).toNat = 2 := rfl
    rw [h2]
    omega
  rw [clear_bit, clear_bit, hmod, BitVec.sub_eq_add_neg, BitVec.sub_eq_add_neg, BitVec.add_assoc]

/-- The target of the code is as odd as the base. -/
theorem addend_even_iff : (base + (imm &&& ~~~ 1)) % 2 = 0 ↔ base % 2 = 0 := by
  have hbit : (imm &&& ~~~ 1).toNat % 2 = 0 := by
    refine even_iff.mp (even_of_bit ?_)
    simp
  rw [even_iff, even_iff, BitVec.toNat_add]
  omega

end Targets

/-! ## The code of the instructions -/

section Code

variable {β : Type} [SlaveAtomicIOI β] {m : Machine β}

omit [SlaveAtomicIOI β] in
theorem jumpTo_even {npc : BitVec 64} (h : npc % 2 = 0) (rd : BitVec 5) (value : BitVec 64) :
    jumpTo npc (some (rd, value)) m = .ok newPCSet
      { m with core := { m.core.setGPR rd value with currentProgramCounter := npc } } := by
  unfold jumpTo
  rw [if_neg fun hne => hne h]
  rfl

omit [SlaveAtomicIOI β] in
theorem jumpTo_odd {npc : BitVec 64} (h : ¬ npc % 2 = 0) (hn : m.core.needTrap = false)
    (link : Option (BitVec 5 × BitVec 64)) :
    jumpTo npc link m = .ok retired
      { m with
        core := m.core.trapped (exception Exec.instrMisalign) npc
        trace := .trap (exception Exec.instrMisalign) npc :: m.trace } := by
  unfold jumpTo
  rw [if_pos h, bind_of_ok (raiseTrap_run hn (by decide) (by decide) npc)]
  rfl

/-- The core after the code: the link, and the target where it is not just behind. -/
def Coded (i : Transfer) (m : Machine β) : Prop :=
  execute i.encode m = .ok newPCSet
    { m with core :=
      { m.core.setGPR i.rd (m.core.currentProgramCounter + 4) with
        currentProgramCounter := i.target m.core.gpr m.core.currentProgramCounter } } ∨
  execute i.encode m = .ok retired m ∧ i.rd = 0 ∧
    i.target m.core.gpr m.core.currentProgramCounter = m.core.currentProgramCounter + 4

theorem jal_coded (heven : m.core.currentProgramCounter % 2 = 0) (rd : BitVec 5)
    (imm : BitVec 20) : Coded (.jal rd imm) m := by
  have hrd : RVInst.rd (Transfer.jal rd imm).encode = rd := rd_uType ..
  have himm : RVInst.jImm (Transfer.jal rd imm).encode = (imm ++ 0#1).signExtend 64 :=
    jImm_jType ..
  refine .inl ?_
  unfold execute exec32
  rw [(encode_opcode (.jal rd imm)).1, (encode_opcode (.jal rd imm)).2]
  show execJal _ m = _
  unfold execJal
  rw [bind_of_ok (getCore_run m), hrd, himm]
  exact jumpTo_even (even_add heven (even_offset imm)) rd _

theorem branchTaken_eq (op : BranchOp) (a b : BitVec 64) :
    branchTaken op.funct3 a b = some (op.taken a b) := by
  have hge : (!a.slt b) = decide (b.toInt ≤ a.toInt) :=
    decide_not.symm.trans (decide_eq_decide.mpr Int.not_lt)
  have hgeu : (!a.ult b) = decide (b.toNat ≤ a.toNat) :=
    decide_not.symm.trans (decide_eq_decide.mpr Nat.not_lt)
  cases op with
  | eq | ne | lt | ltu => rfl
  | ge => exact congrArg some hge
  | geu => exact congrArg some hgeu

theorem branch_coded (heven : m.core.currentProgramCounter % 2 = 0) (op : BranchOp)
    (rs1 rs2 : BitVec 5) (imm : BitVec 12) : Coded (.branch op rs1 rs2 imm) m := by
  have hf3 : RVInst.funct3 (Transfer.branch op rs1 rs2 imm).encode = op.funct3 := funct3_rType ..
  have hrs1 : RVInst.rs1 (Transfer.branch op rs1 rs2 imm).encode = rs1 := rs1_rType ..
  have hrs2 : RVInst.rs2 (Transfer.branch op rs1 rs2 imm).encode = rs2 := rs2_rType ..
  have himm : RVInst.bImm (Transfer.branch op rs1 rs2 imm).encode = (imm ++ 0#1).signExtend 64 :=
    bImm_bType ..
  have hrun : execute (Transfer.branch op rs1 rs2 imm).encode m =
      execBranch (Transfer.branch op rs1 rs2 imm).encode m := by
    unfold execute exec32
    rw [(encode_opcode (.branch op rs1 rs2 imm)).1, (encode_opcode (.branch op rs1 rs2 imm)).2]
    rfl
  unfold Coded
  rw [hrun]
  unfold execBranch
  rw [bind_of_ok (getCore_run m), hf3, hrs1, hrs2, himm, branchTaken_eq]
  cases htaken : op.taken (m.core.gpr rs1) (m.core.gpr rs2) with
  | true =>
    have hodd : ¬ (m.core.currentProgramCounter + (imm ++ 0#1).signExtend 64) % 2 ≠ 0 :=
      fun hne => hne (even_add heven (even_offset imm))
    refine .inl ?_
    simp only [Transfer.rd, Transfer.target, htaken, if_true, setGPR_zero]
    rw [if_neg hodd]
    rfl
  | false =>
    refine .inr ⟨rfl, rfl, ?_⟩
    simp only [Transfer.target, htaken, Bool.false_eq_true, if_false]

/-- The assertion of JALR holds; its target is odd for an odd base. -/
theorem jalr_run (rd rs1 : BitVec 5) (imm : BitVec 12) :
    execute (Transfer.jalr rd rs1 imm).encode m =
      jumpTo (m.core.gpr rs1 + (imm.signExtend 64 &&& ~~~ 1))
        (some (rd, m.core.currentProgramCounter + 4)) m := by
  have hrs1 : RVInst.rs1 (Transfer.jalr rd rs1 imm).encode = rs1 := by
    rw [Transfer.encode, iType_eq, rs1_rType]
  have hrd : RVInst.rd (Transfer.jalr rd rs1 imm).encode = rd := by
    rw [Transfer.encode, iType_eq, rd_rType]
  have himm : RVInst.iImm12 (Transfer.jalr rd rs1 imm).encode = imm.signExtend 64 :=
    iImm12_iType ..
  unfold execute exec32
  rw [(encode_opcode (.jalr rd rs1 imm)).1, (encode_opcode (.jalr rd rs1 imm)).2]
  show execJalr _ m = _
  unfold execJalr
  rw [bind_of_ok (getCore_run m), hrd, hrs1, himm]
  exact assert_bind (congrArg (m.core.gpr rs1 + ·) (clear_bit0 (by decide) _).symm)

theorem coded (i : Transfer) (heven : m.core.currentProgramCounter % 2 = 0)
    (hbase : i.EvenBase m.core.gpr) : Coded i m := by
  cases i with
  | jal rd imm => exact jal_coded heven rd imm
  | branch op rs1 rs2 imm => exact branch_coded heven op rs1 rs2 imm
  | jalr rd rs1 imm =>
    refine .inl ?_
    rw [jalr_run, jumpTo_even (addend_even_iff.mpr hbase), clear_addend hbase]
    rfl

end Code

/-! ## The step -/

section Steps

variable {β : Type} [SlaveAtomicIOI β]

/-- The core behind the instruction. -/
def Transfer.after (i : Transfer) (c : RV64Core) : RV64Core :=
  retiredAt c i.rd (c.currentProgramCounter + 4) (i.target c.gpr c.currentProgramCounter)

/-- The step does what the manual says and nothing else: no exception is raised, the core is the
one behind the instruction, the rest of the machine is as the fetch has left it, and the step
returns unless the reserved bits of the status stop it. -/
structure Transfers (s : Machine β) (i : Transfer) : Prop where
  core : (final step s).core = i.after s.core
  traps : traps (final step s).trace = traps s.trace
  rest : final step s = { decoding s i.encode with core := (final step s).core }
  bus : Quiet s.bus (final step s).bus
  returns : returns step s = statusBlankZero s.core.status

variable {s : Machine β} {i : Transfer}

/-- What a step that has run the code to its end leaves. -/
theorem transfers_of_coded (h : fetchedWord s = some i.encode)
    (hrun : Coded i (decoding s i.encode)) : Transfers s i := by
  obtain ⟨hcore, hquiet⟩ := decoding_silent h
  have hlen : isCompressed i.encode = false := (encode_opcode i).1
  have hend : ∃ u flags, flags.isInstrIllegal = false ∧
      execute i.encode (decoding s i.encode) = .ok flags u ∧
      u = { decoding s i.encode with core := u.core } ∧
      (u.core.advancePC
        { inst := i.encode, isCompressedInst := isCompressed i.encode, flags := flags }).retire =
        i.after s.core ∧ u.core.status = s.core.status := by
    rcases hrun with hrun | ⟨hrun, hrd, htarget⟩
    · refine ⟨_, _, rfl, hrun, rfl, ?_, ?_⟩
      · rw [hcore]
        exact retiredAt_jump s.core _ _ _ rfl
      · rw [hcore]
        exact setGPR_status s.core.sampled _ _
    · refine ⟨_, _, rfl, hrun, rfl, ?_, ?_⟩
      · rw [hcore] at htarget ⊢
        unfold Transfer.after
        rw [hrd]
        refine (retiredAt_fall s.core 0 (s.core.currentProgramCounter + 4) rfl).trans ?_
        rw [hlen]
        exact congrArg (retiredAt s.core 0 _) htarget.symm
      · rw [hcore]
        rfl
  obtain ⟨u, flags, hlegal, hcode, hrest, hafter, hstatus⟩ := hend
  obtain ⟨hfinal, hreturns⟩ := step_end h hcode hlegal
  rw [hafter] at hfinal
  rw [hrest] at hfinal
  have htrace : (final step s).trace = (decoding s i.encode).trace := by rw [hfinal]
  refine ⟨?_, ?_, ?_, ?_, ?_⟩
  · rw [hfinal]
  · rw [htrace, ← traps_log, decoding_log h, ← traps_log s.trace]
    rfl
  · rw [hfinal]
  · rw [hfinal]
    exact hquiet
  · rw [hreturns]
    exact congrArg statusBlankZero hstatus

/-- A JALR with an odd base does not retire. -/
theorem not_transfers_odd {rd rs1 : BitVec 5} {imm : BitVec 12}
    (h : fetchedWord s = some (Transfer.jalr rd rs1 imm).encode) (hodd : ¬ s.core.gpr rs1 % 2 = 0) :
    ¬ Transfers s (.jalr rd rs1 imm) := by
  intro ht
  obtain ⟨hcore, -⟩ := decoding_silent h
  have hbase : ¬ ((decoding s (Transfer.jalr rd rs1 imm).encode).core.gpr rs1 +
      (imm.signExtend 64 &&& ~~~ 1)) % 2 = 0 := by
    rw [hcore]
    exact fun heven => hodd (addend_even_iff.mp heven)
  have hclear : (decoding s (Transfer.jalr rd rs1 imm).encode).core.needTrap = false := by
    rw [hcore]
    rfl
  have hrun := (jalr_run rd rs1 imm).trans (jumpTo_odd hbase hclear _)
  have hexcepts : Excepts (fun _ : β => ()) s _ _ :=
    excepts_of_end ((step_eq h).trans (bind_of_ok hrun)) rfl
      (congrArg (RV64Core.trapped · _ _) hcore) rfl
  have hminstret := (congrArg RV64Core.minstret hexcepts.core).symm.trans
    (congrArg RV64Core.minstret ht.core)
  have hsame : ∀ (c : RV64Core) (cause : Cause) (tval : BitVec 64),
      (trapEnd (c.trapped cause tval)).minstret = c.minstret := by
    intro c cause tval
    unfold RV64Core.trapped
    dsimp only
    split <;> rfl
  rw [hsame] at hminstret
  have hne : ∀ v : BitVec 64, v ≠ v + 1 := by
    intro v hv
    have := congrArg BitVec.toNat hv
    rw [BitVec.toNat_add] at this
    have hlt := v.isLt
    have hone : (1 : BitVec 64).toNat = 1 := rfl
    omega
  exact hne _ hminstret

/-- JAL and the branches do what the manual says, and JALR does exactly when its base is even. -/
theorem control_transfer (s : Machine β) (i : Transfer) (h : fetchedWord s = some i.encode) :
    Transfers s i ↔ i.EvenBase s.core.gpr := by
  obtain ⟨hcore, -⟩ := decoding_silent h
  constructor
  · intro ht
    cases i with
    | jal | branch => trivial
    | jalr rd rs1 imm =>
      show s.core.gpr rs1 % 2 = 0
      exact Decidable.byContradiction fun hodd => not_transfers_odd h hodd ht
  · intro hbase
    obtain ⟨-, t, hfetch⟩ := fetchedWord_some h
    refine transfers_of_coded h (coded i ?_ ?_)
    · rw [hcore]
      exact fetch_even hfetch
    · rw [hcore]
      exact hbase

end Steps

/-- JALR with `x1` as base and link. -/
def linkMachine (base : BitVec 64) (imm : BitVec 12) : Machine (AddrBus Empty) :=
  Machine.start { (default : RV64Core) with
    currentProgramCounter := 0x80000000, nextPrivMode := .mMode
    gpr := fun r => if r = 1 then base else 0 }
    (memoryBus fun a => (Transfer.jalr 1 1 imm).encode.extractLsb' (8 * a) 8)

/-- The sum of the base and the immediate is even, and the step raises an exception. -/
theorem odd_base_refused :
    ¬ ∀ (s : Machine (AddrBus Empty)) (i : Transfer), fetchedWord s = some i.encode →
      Transfers s i := by
  intro hall
  have hodd : ¬ (linkMachine 0x80000101 1).core.gpr 1 % 2 = 0 := by decide
  have hword : fetchedWord (linkMachine 0x80000101 1) =
      some (Transfer.jalr 1 1 1).encode := by decide +kernel
  exact not_transfers_odd hword hodd (hall _ _ hword)

theorem control_transfer_odd_offset :
    Transfers (linkMachine 0x80000100 3) (.jalr 1 1 3) :=
  (control_transfer (linkMachine 0x80000100 3) (.jalr 1 1 3) (by decide +kernel)).mpr
    (by unfold Transfer.EvenBase; decide)

end NextEmu.Simple.ControlTransfer
