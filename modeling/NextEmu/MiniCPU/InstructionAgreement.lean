import NextEmu.MiniCPU.CommandAgreement

/-!
# The instructions of the two cores agree

An instruction that is legal for `rvcore_simple` is executed by the MiniCPU in the same way,
unless it loads or stores at one of the two registers that the MiniCPU has in its address space.
-/

namespace NextEmu.MiniCPU.Agreement

open NextEmu.Lib.AbortState NextEmu.Lib.BitField NextEmu.Lib.Following NextEmu.Sdk
open NextEmu.Simple

variable {β α : Type}

/-- The address of a load or a store and of their compressed forms. -/
def effectiveAddr (c : Simple.RV64Core) (inst : BitVec 32) : Option (BitVec 64) :=
  if isCompressed inst then
    match COpCode.ofBits (RVC.opcode inst) with
    | some .lw | some .sw => some (c.gpr (RVC.highReg inst) + RVC.immW inst)
    | some .ld | some .sd => some (c.gpr (RVC.highReg inst) + RVC.immD inst)
    | some .lwsp => some (c.gpr 2 + RVC.immLwsp inst)
    | some .ldsp => some (c.gpr 2 + RVC.immLdsp inst)
    | some .swsp => some (c.gpr 2 + RVC.immSwsp inst)
    | some .sdsp => some (c.gpr 2 + RVC.immSdsp inst)
    | _ => none
  else
    match Simple.OpCode.ofBits (RVInst.opcode inst) with
    | some .load => some (c.gpr (RVInst.rs1 inst) + RVInst.iImm12 inst)
    | some .store => some (c.gpr (RVInst.rs1 inst) + RVInst.sImm inst)
    | _ => none

/-- The instruction loads and stores at no register of the core. -/
def StaysFar (c : Simple.RV64Core) (inst : BitVec 32) : Prop :=
  ∀ a, effectiveAddr c inst = some a → Far a

/-- An instruction that the MiniCPU executes as the other core does, if it is legal there. -/
structure Acts (addr : Simple.RV64Core → Option (BitVec 64)) (x : Simple.Emu β ExecFlags)
    (y : Emu β ExecFlags) : Prop where
  follows : ∀ t, t.core.InRange → (∀ a, addr t.core.simple = some a → Far a) →
    FollowsAt setting (·.isInstrIllegal = false) x y t
  ends : ∀ t, t.core.InRange → wp y (Ends t) (fun e _ => e ≠ .ctxIndex) t

section Instructions

variable {addr : Simple.RV64Core → Option (BitVec 64)} {inst : BitVec 32}
  {t : Machine β}

theorem acts_of {x : Simple.Emu β ExecFlags} {y : Emu β ExecFlags} (h : Agrees x y) :
    Acts addr x y where
  follows t hin _ := (h.follows t hin).mono
  ends t hin := ends_of_stays (h.stays t hin)

theorem agrees_setGPR_retired (rd : BitVec 5) (value : BitVec 64) :
    Agrees (β := β) (do Simple.setGPR rd value; return retired)
      (do setGPR rd value; return retired) :=
  (agrees_setGPR rd value).bind fun _ => follows_pure retired

theorem agrees_execLui : Agrees (β := β) (Simple.execLui inst) (execLui inst) :=
  agrees_setGPR_retired _ _

theorem agrees_execAuipc : Agrees (β := β) (Simple.execAuipc inst) (execAuipc inst) :=
  agrees_getCtx fun _ => agrees_setGPR_retired _ _

theorem agrees_aluGPR (rd : BitVec 5) (a b : BitVec 64) (op : ALUOp) (op32 : Bool) :
    Agrees (β := β) (Simple.aluGPR rd a b op op32) (aluGPR rd a b op op32) :=
  (agrees_aluExec a b op op32).bind fun _ => agrees_setGPR_retired _ _

theorem agrees_execImm (decoded : Option (ALUOp × BitVec 64)) (op32 : Bool) :
    Agrees (β := β) (Simple.execImm decoded op32 inst) (execImm decoded op32 inst) := by
  cases decoded with
  | none => exact follows_pure _
  | some d => exact agrees_getCtx fun _ => agrees_aluGPR _ _ _ _ _

theorem agrees_execReg (decoded : Option ALUOp) (op32 : Bool) :
    Agrees (β := β) (Simple.execReg decoded op32 inst) (execReg decoded op32 inst) := by
  cases decoded with
  | none => exact follows_pure _
  | some op => exact agrees_getCtx fun _ => agrees_aluGPR _ _ _ _ _

variable [SlaveAtomicIOI β]

theorem agrees_jumpTo (npc : BitVec 64) (link : Option (BitVec 5 × BitVec 64)) :
    Agrees (β := β) (Simple.jumpTo npc link) (jumpTo npc link) := by
  refine .ite ((agrees_raiseTrap _ _).bind fun _ => follows_pure _) ?_
  have hend : Agrees (β := β) (do
      Simple.modifyCore fun c => { c with currentProgramCounter := npc }
      return newPCSet) (do setPC npc; return newPCSet) :=
    (agrees_setPC npc).bind fun _ => follows_pure _
  cases link with
  | none => exact hend
  | some l => exact (agrees_setGPR l.1 l.2).bind fun _ => hend

theorem agrees_execJal : Agrees (β := β) (Simple.execJal inst) (execJal inst) :=
  agrees_getCtx fun _ => agrees_jumpTo _ _

theorem agrees_execJalr : Agrees (β := β) (Simple.execJalr inst) (execJalr inst) :=
  agrees_getCtx fun _ => (agrees_assertThat _ _).bind fun _ => agrees_jumpTo _ _

theorem agrees_execBranch : Agrees (β := β) (Simple.execBranch inst) (execBranch inst) := by
  refine agrees_getCtx fun c => ?_
  dsimp only
  cases branchTaken (RVInst.funct3 inst) (c.gpr (RVInst.rs1 inst)) (c.gpr (RVInst.rs2 inst)) with
  | none => exact follows_pure _
  | some taken =>
    cases taken with
    | false => exact follows_pure _
    | true =>
      refine .ite ?_ ?_
      · exact (agrees_raiseTrap _ _).bind fun _ => follows_pure _
      · exact (agrees_setPC _).bind fun _ => follows_pure _

theorem agrees_amoEnd (exc : BitVec 63) (a : BitVec 64) (rd : BitVec 5) (result : BitVec 64) :
    Agrees (β := β) (Simple.amoEnd exc a rd result) (amoEnd exc a rd result) := by
  unfold Simple.amoEnd amoEnd
  dsimp only
  refine .ite (agrees_setGPR_retired _ _) ?_
  exact (agrees_raiseTrap _ _).bind fun _ => follows_pure _

theorem agrees_execAmo : Agrees (β := β) (Simple.execAmo inst) (execAmo inst) := by
  refine .ite (follows_pure _) (agrees_getCtx fun c => ?_)
  dsimp only
  cases AMOFunct.ofBits ((RVInst.funct7 inst >>> 2).setWidth 5) with
  | none => exact follows_pure _
  | some op =>
    cases op with
    | lr =>
      refine .ite (follows_pure _) ?_
      exact (agrees_careful (Outcomes.silent_loadReserved _ _)).bind fun _ => agrees_amoEnd _ _ _ _
    | sc =>
      exact (agrees_careful (Outcomes.careful_storeConditional _ _ _)).bind fun _ =>
        agrees_amoEnd _ _ _ _
    | _ => exact (agrees_careful (Outcomes.careful_amo _ _ _ _)).bind fun _ => agrees_amoEnd _ _ _ _

theorem acts_execLoad (haddr : ∀ c, addr c = some (c.gpr (RVInst.rs1 inst) + RVInst.iImm12 inst)) :
    Acts (β := β) addr (Simple.execLoad inst) (execLoad inst) where
  follows t hin hfar := by
    have ha := hfar _ (haddr t.core.simple)
    refine followsAt_getCtx hin ?_
    dsimp only
    generalize RVInst.funct3 inst = funct3
    split
    case h_8 =>
      -- The two matches are of one shape; a split of the first may have decided the second.
      try split
      all_goals first | contradiction | exact ((follows_pure _).follows t hin).mono
    all_goals exact ((agrees_loadGPR ha _ _ _).follows t hin).mono
  ends t hin := by
    refine wp_getCtx hin ?_
    dsimp only
    split
    case h_8 => exact .kept (.refl t)
    all_goals exact ends_of_stays (stays_loadGPR _ _ _ _ hin)

theorem acts_execStore (haddr : ∀ c, addr c = some (c.gpr (RVInst.rs1 inst) + RVInst.sImm inst)) :
    Acts (β := β) addr (Simple.execStore inst) (execStore inst) where
  follows t hin hfar := by
    have ha := hfar _ (haddr t.core.simple)
    refine followsAt_getCtx hin ?_
    dsimp only
    generalize RVInst.funct3 inst = funct3
    split
    case h_5 =>
      try split
      all_goals first | contradiction | exact ((follows_pure _).follows t hin).mono
    all_goals
      exact (((agrees_memWrite ha _ _).bind fun _ => follows_pure _).follows t hin).mono
  ends t hin := by
    refine wp_getCtx hin ?_
    dsimp only
    split
    case h_5 => exact .kept (.refl t)
    all_goals exact memWrite_ends _ _ _ hin

end Instructions

/-! The SYSTEM instructions. -/

section System

variable {addr : Simple.RV64Core → Option (BitVec 64)} {inst : BitVec 32}
  {t : Machine β} {d : RV64Core}

/-- `y` follows `x` from `t`, and keeps the contexts. -/
def AgreesFrom (x : Simple.Emu β α) (y : Emu β α) (t : Machine β) : Prop :=
  FollowsAt setting (fun _ => True) x y t ∧ Stays setting y t

theorem agreesFrom {x : Simple.Emu β α} {y : Emu β α} (h : Agrees x y) (hin : t.core.InRange) :
    AgreesFrom x y t := ⟨h.follows t hin, h.stays t hin⟩

/-- The core that a CSR write has made takes the place of the old one. -/
theorem agreesFrom_replace {x : Simple.Emu β α} {y : Emu β α} (h : Agrees x y)
    (hin : t.core.InRange) (hd : KeepsCtx t.core d) :
    AgreesFrom (do Simple.modifyCore fun _ => d.simple; x) (do modifyCore fun _ => d; y) t := by
  have hstay : Stay t { t with core := d } := hd.stay rfl
  refine ⟨fun a s hrun hcount _ => ?_, ?_⟩
  · obtain ⟨u, hu, hview, hstay'⟩ :=
      h.follows { t with core := d } (hstay.inRange hin) a s hrun hcount trivial
    exact ⟨u, hu, hview, hstay.trans hstay'⟩
  · have hy : Stays setting y { t with core := d } := h.stays _ (hstay.inRange hin)
    exact wp_mono hy (fun _ u hu => hstay.trans hu) (fun _ _ he => he)

theorem agreesFrom_csrInstr (write : Bool) (newValue : BitVec 64 → Option (BitVec 64))
    (hin : t.core.InRange) :
    AgreesFrom (β := β) (Simple.csrInstr inst write newValue) (csrInstr inst write newValue) t := by
  have hillegal : AgreesFrom (β := β) (pure instrIllegal) (pure instrIllegal) t :=
    agreesFrom (follows_pure _) hin
  change AgreesFrom (if !t.core.csrOpPermissionCheck (field inst 20 12) write then _ else _)
    (if !t.core.csrOpPermissionCheck (field inst 20 12) write then _ else _) t
  have hview : (setting.view t).core = t.core.simple := rfl
  rw [hview, csrRead_simple]
  split
  · exact hillegal
  · cases t.core.csrRead (CSRAddr.ofNumber (field inst 20 12)) with
    | none => exact hillegal
    | some csrResult =>
      dsimp only
      cases newValue csrResult with
      | none => exact agreesFrom (agrees_setGPR_retired _ _) hin
      | some data =>
        dsimp only
        rw [csrWrite_simple]
        cases hw : t.core.csrWrite data (CSRAddr.ofNumber (field inst 20 12)) with
        | error a =>
          exact agreesFrom (follows_throw a (nofun : ¬ Assertion.shared a = .ctxIndex)) hin
        | ok d =>
          cases d with
          | none => exact hillegal
          | some d =>
            exact agreesFrom_replace (agrees_setGPR_retired _ _) hin (csrWrite_keeps hw)

theorem acts_csrInstr (write : Bool) (newValue : BitVec 64 → Option (BitVec 64)) :
    Acts (β := β) addr (Simple.csrInstr inst write newValue) (csrInstr inst write newValue) where
  follows _ hin _ := (agreesFrom_csrInstr write newValue hin).1.mono
  ends _ hin := ends_of_stays (agreesFrom_csrInstr write newValue hin).2

theorem acts_getCtx {f : Simple.RV64Core → Simple.Emu β ExecFlags}
    {g : MiniCPUCtx → Emu β ExecFlags}
    (h : ∀ c, Acts addr (f c) (g ⟨c.gpr, c.currentProgramCounter⟩)) :
    Acts addr (Simple.getCore >>= f) (getCtx >>= g) where
  follows t hin hfar := followsAt_getCtx hin ((h t.core.simple).follows t hin hfar)
  ends t hin := wp_getCtx hin ((h t.core.simple).ends t hin)

variable [SlaveAtomicIOI β]

theorem agrees_execPriv : Agrees (β := β) (Simple.execPriv inst) (execPriv inst) := by
  unfold Simple.execPriv execPriv
  dsimp only
  generalize RVInst.funct7 inst = funct7
  generalize RVInst.rs2 inst = rs2
  split
  · refine .ite ?_ (follows_pure _)
    split
    · exact agrees_ecall.bind fun _ => follows_pure _
    · exact (agrees_raiseTrap _ _).bind fun _ => follows_pure _
    · try split
      all_goals first | contradiction | exact follows_pure _
  · refine .ite ?_ (follows_pure _)
    split
    · exact agrees_sret.bind fun _ => follows_pure _
    · exact follows_pure _
    · try split
      all_goals first | contradiction | exact follows_pure _
  · exact .ite (agrees_mret.bind fun _ => follows_pure _) (follows_pure _)
  · exact agrees_getCtx fun _ => (agrees_sfenceVma _ _).bind fun _ => follows_pure _
  · try split
    all_goals first | contradiction | exact follows_pure _

theorem acts_execSystem : Acts (β := β) addr (Simple.execSystem inst) (execSystem inst) := by
  unfold Simple.execSystem execSystem
  generalize RVInst.funct3 inst = funct3
  split
  · exact acts_of agrees_execPriv
  · exact acts_getCtx fun _ => acts_csrInstr _ _
  · exact acts_getCtx fun _ => acts_csrInstr _ _
  · exact acts_getCtx fun _ => acts_csrInstr _ _
  · exact acts_csrInstr _ _
  · exact acts_csrInstr _ _
  · exact acts_csrInstr _ _
  · try split
    all_goals first | contradiction | exact acts_of (follows_pure _)

end System

/-! The two decoders. -/

section Decoders

variable {addr : Simple.RV64Core → Option (BitVec 64)} {inst : BitVec 32}

/-- Of an instruction that the other core does not know no more is to be shown than how it ends. -/
theorem acts_unknown {y : Emu β ExecFlags}
    (h : ∀ t, t.core.InRange → wp y (Ends t) (fun e _ => e ≠ .ctxIndex) t) :
    Acts addr (pure instrIllegal) y where
  follows _ _ _ a s hrun _ hlegal := by
    cases hrun
    cases hlegal
  ends := h

theorem agrees_cAlu (rd : BitVec 5) (b : BitVec 64) (op : ALUOp) (op32 : Bool) :
    Agrees (β := β) (Simple.cAlu rd b op op32) (cAlu rd b op op32) :=
  agrees_getCtx fun _ => agrees_aluGPR _ _ _ _ _

/-- The PC is read and assigned at once. -/
theorem getCtx_setPC (pc : MiniCPUCtx → BitVec 64) :
    (do let x ← getCtx; setPC (pc x) : Emu β Unit) =
      modifyCtx fun x => { x with currentProgramCounter := pc x } := by
  funext s
  by_cases hin : s.core.InRange
  · rw [bind_of_ok (getCtx_run hin)]
    exact modifyCtx_congr rfl
  · have hget : getCtx s = .error .ctxIndex s := if_neg hin
    have hmodify : ∀ f, modifyCtx f s = .error .ctxIndex s := fun _ => if_neg hin
    simp only [bind, EStateM.bind, hget, hmodify]

theorem agrees_getCtx_setPC (n : BitVec 64) :
    Agrees (β := β) (Simple.modifyCore fun c =>
      { c with currentProgramCounter := c.currentProgramCounter + n })
      (do let x ← getCtx; setPC (x.currentProgramCounter + n)) := by
  rw [getCtx_setPC fun x => x.currentProgramCounter + n]
  exact agrees_modifyCtx fun _ => rfl

theorem agrees_cJump (imm : BitVec 64) : Agrees (β := β) (Simple.cJump imm) (cJump imm) := by
  have hassoc : cJump (β := β) imm =
      (do let x ← getCtx; setPC (x.currentProgramCounter + imm)) >>= fun _ => pure newPCSet :=
    (bind_assoc _ _ _).symm
  rw [hassoc]
  exact (agrees_getCtx_setPC imm).bind fun _ => follows_pure _

theorem agrees_execCAddi16spLui :
    Agrees (β := β) (Simple.execCAddi16spLui inst) (execCAddi16spLui inst) := by
  have hset : ∀ rd value, Agrees (β := β) (do Simple.setGPR rd value; return retired)
      (do setGPR rd value; return retired) := agrees_setGPR_retired
  refine agrees_getCtx fun c => .ite (.ite (hset _ _) (follows_pure _)) ?_
  exact .ite (hset _ _) (follows_pure _)

theorem agrees_execCAlu : Agrees (β := β) (Simple.execCAlu inst) (execCAlu inst) := by
  refine agrees_getCtx fun c => .ite ?_ (.ite (agrees_cAlu _ _ _ _) ?_)
  · exact .ite (agrees_cAlu _ _ _ _) (follows_pure _)
  · dsimp only
    generalize (binaryConcat inst 6 5 0).setWidth 2 = funct2
    split
    · exact agrees_cAlu _ _ _ _
    · exact agrees_cAlu _ _ _ _
    · exact .ite (follows_pure _) (agrees_cAlu _ _ _ _)
    · rename_i h0 h1 h2
      have h3 : funct2 = 3#2 := by
        revert funct2
        decide
      subst h3
      exact .ite (follows_pure _) (agrees_cAlu _ _ _ _)

variable [SlaveAtomicIOI β]

theorem acts_exec32 (hinst : isCompressed inst = false) :
    Acts (β := β) (effectiveAddr · inst) (Simple.exec32 inst) (exec32 inst) := by
  unfold Simple.exec32 exec32
  by_cases hload : RVInst.opcode inst = 0b0001011
  · have hown : OpCode.ofBits (RVInst.opcode inst) = some .loadAsync := if_pos hload
    have hnone : Simple.OpCode.ofBits (RVInst.opcode inst) = none := by rw [hload]; rfl
    rw [hown, hnone]
    exact acts_unknown (acts_execLoad (β := β) fun _ => rfl).ends
  by_cases hstore : RVInst.opcode inst = 0b0101011
  · have hown : OpCode.ofBits (RVInst.opcode inst) = some .storeAsync := by
      unfold OpCode.ofBits
      rw [if_neg hload, if_pos hstore]
    have hnone : Simple.OpCode.ofBits (RVInst.opcode inst) = none := by rw [hstore]; rfl
    rw [hown, hnone]
    exact acts_unknown (acts_execStore (β := β) fun _ => rfl).ends
  have hbase : OpCode.ofBits (RVInst.opcode inst) =
      (Simple.OpCode.ofBits (RVInst.opcode inst)).map .base := by
    unfold OpCode.ofBits
    rw [if_neg hload, if_neg hstore]
  rw [hbase]
  cases hcode : Simple.OpCode.ofBits (RVInst.opcode inst) with
  | none => exact acts_of (follows_pure _)
  | some code =>
    cases code with
    | lui => exact acts_of agrees_execLui
    | auipc => exact acts_of agrees_execAuipc
    | jal => exact acts_of agrees_execJal
    | jalr => exact acts_of agrees_execJalr
    | branch => exact acts_of agrees_execBranch
    | load =>
      refine acts_execLoad fun c => ?_
      simp only [effectiveAddr, hinst, hcode, Bool.false_eq_true, if_false]
    | store =>
      refine acts_execStore fun c => ?_
      simp only [effectiveAddr, hinst, hcode, Bool.false_eq_true, if_false]
    | opImm => exact acts_of (agrees_execImm _ _)
    | opImm32 => exact acts_of (agrees_execImm _ _)
    | op => exact acts_of (agrees_execReg _ _)
    | op32 => exact acts_of (agrees_execReg _ _)
    | amo => exact acts_of agrees_execAmo
    | fence => exact acts_of (follows_pure _)
    | system => exact acts_execSystem

theorem acts_cLoad {base : BitVec 5} {imm : BitVec 64} (n : Nat) (rd : BitVec 5)
    (haddr : ∀ c, addr c = some (c.gpr base + imm)) :
    Acts (β := β) addr (Simple.cLoad base imm n rd) (cLoad base imm n rd) where
  follows t hin hfar := by
    have ha := hfar _ (haddr t.core.simple)
    exact followsAt_getCtx hin ((agrees_loadGPR ha _ _ _).follows t hin).mono
  ends _ hin := wp_getCtx hin (ends_of_stays (stays_loadGPR _ _ _ _ hin))

theorem acts_cStore {base : BitVec 5} {imm : BitVec 64} (n : Nat) (rs2 : BitVec 5)
    (haddr : ∀ c, addr c = some (c.gpr base + imm)) :
    Acts (β := β) addr (Simple.cStore base imm n rs2) (cStore base imm n rs2) where
  follows t hin hfar := by
    have ha := hfar _ (haddr t.core.simple)
    have hwrite := (agrees_memWrite (β := β) ha n (t.core.simple.gpr rs2)).bind
      fun _ => follows_pure retired
    exact followsAt_getCtx hin (hwrite.follows t hin).mono
  ends _ hin := wp_getCtx hin (memWrite_ends _ _ _ hin)

theorem agrees_execCJrMvEbJalrAdd :
    Agrees (β := β) (Simple.execCJrMvEbJalrAdd inst) (execCJrMvEbJalrAdd inst) := by
  refine agrees_getCtx fun c => .ite (.ite (.ite ?_ (agrees_jumpTo _ _)) (agrees_cAlu _ _ _ _)) ?_
  · exact (agrees_raiseTrap _ _).bind fun _ => follows_pure _
  · exact .ite (.ite (follows_pure _) (agrees_jumpTo _ _)) (agrees_setGPR_retired _ _)

theorem acts_execRvc (hinst : isCompressed inst = true) :
    Acts (β := β) (effectiveAddr · inst) (Simple.execRvc inst) (execRvc inst) := by
  unfold Simple.execRvc execRvc
  cases hcode : COpCode.ofBits (RVC.opcode inst) with
  | none => exact acts_of (follows_pure _)
  | some code =>
    cases code with
    | addi4spn =>
      exact acts_of (agrees_getCtx fun _ => .ite (agrees_setGPR_retired _ _) (follows_pure _))
    | lw => exact acts_cLoad _ _ fun c => by simp only [effectiveAddr, hinst, hcode, if_true]
    | ld => exact acts_cLoad _ _ fun c => by simp only [effectiveAddr, hinst, hcode, if_true]
    | sw => exact acts_cStore _ _ fun c => by simp only [effectiveAddr, hinst, hcode, if_true]
    | sd => exact acts_cStore _ _ fun c => by simp only [effectiveAddr, hinst, hcode, if_true]
    | addi => exact acts_of (.ite (agrees_cAlu _ _ _ _) (follows_pure _))
    | addiw => exact acts_of (agrees_cAlu _ _ _ _)
    | li => exact acts_of (agrees_setGPR_retired _ _)
    | addi16spLui => exact acts_of agrees_execCAddi16spLui
    | alu => exact acts_of agrees_execCAlu
    | j => exact acts_of (agrees_cJump _)
    | beqz => exact acts_of (agrees_getCtx fun _ => .ite (agrees_cJump _) (follows_pure _))
    | bnez => exact acts_of (agrees_getCtx fun _ => .ite (agrees_cJump _) (follows_pure _))
    | slli => exact acts_of (.ite (agrees_cAlu _ _ _ _) (follows_pure _))
    | lwsp => exact acts_cLoad _ _ fun c => by simp only [effectiveAddr, hinst, hcode, if_true]
    | ldsp => exact acts_cLoad _ _ fun c => by simp only [effectiveAddr, hinst, hcode, if_true]
    | jrMvEbJalrAdd => exact acts_of agrees_execCJrMvEbJalrAdd
    | swsp => exact acts_cStore _ _ fun c => by simp only [effectiveAddr, hinst, hcode, if_true]
    | sdsp => exact acts_cStore _ _ fun c => by simp only [effectiveAddr, hinst, hcode, if_true]

end Decoders

end NextEmu.MiniCPU.Agreement
