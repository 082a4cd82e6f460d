import NextEmu.Lib.Following
import NextEmu.MiniCPU.Step
import NextEmu.Simple.Outcomes

/-!
# The commands of the two cores agree

The code of the MiniCPU follows that of `rvcore_simple`, command by command: a MiniCPU shows
the registers that it has in its current context, and what is counted are the traps.
-/

namespace NextEmu.MiniCPU.Agreement

open NextEmu.Lib.AbortState NextEmu.Lib.BitField NextEmu.Lib.Following NextEmu.Sdk
open NextEmu.Simple
open Outcomes (traps fetches log Careful IsSilent)

variable {β α ρ : Type}

/-- What stays of the contexts while an instruction runs that does not store to the context
register. -/
structure Stay (t u : Machine β) : Prop where
  currentCtx : u.core.currentCtx = t.core.currentCtx
  newCtx : u.core.newCtx = t.core.newCtx
  switchCtx : u.core.switchCtx = t.core.switchCtx
  ctxStores : u.ctxStores = t.ctxStores
  others : ∀ i, i ≠ t.core.ctxIndex → u.core.ctx i = t.core.ctx i

theorem ctxIndex_congr {c d : RV64Core} (h : d.currentCtx = c.currentCtx) :
    d.ctxIndex = c.ctxIndex := by
  unfold RV64Core.ctxIndex
  simp only [h]

theorem Stay.refl (t : Machine β) : Stay t t := ⟨rfl, rfl, rfl, rfl, fun _ _ => rfl⟩

theorem Stay.trans {t u v : Machine β} (h : Stay t u) (h' : Stay u v) : Stay t v where
  currentCtx := h'.currentCtx.trans h.currentCtx
  newCtx := h'.newCtx.trans h.newCtx
  switchCtx := h'.switchCtx.trans h.switchCtx
  ctxStores := h'.ctxStores.trans h.ctxStores
  others i hi := by
    rw [h'.others i (by rwa [ctxIndex_congr h.currentCtx]), h.others i hi]

theorem Stay.inRange {t u : Machine β} (h : Stay t u) (hin : t.core.InRange) :
    u.core.InRange := by
  unfold RV64Core.InRange
  rw [h.currentCtx]
  exact hin

/-- How the MiniCPU follows the other core. -/
def setting : Setting Assertion (Simple.Machine β) (Machine β) where
  view := Machine.simple
  inv t := t.core.InRange
  stay := Stay
  count s := (traps s.trace).length
  bad e := e = .ctxIndex
  refl := Stay.refl
  trans _ _ _ := Stay.trans
  keep _ _ hin h := h.inRange hin

abbrev Agrees (x : Simple.Emu β α) (y : Emu β α) : Prop := Follows setting x y

/-! ## The primitives -/

section Primitives

/-- A core with the registers of `c` in each context. -/
def ofSimple (c : Simple.RV64Core) : RV64Core where
  intStatus := c.intStatus
  ctx _ := ⟨c.gpr, c.currentProgramCounter⟩
  currentCtx := 0
  newCtx := 0
  switchCtx := false
  csrMCycleNum := c.csrMCycleNum
  csrMIntDelegation := c.csrMIntDelegation
  csrMExceptionDelegation := c.csrMExceptionDelegation
  csrMachineTrapVal := c.csrMachineTrapVal
  csrMachineCause := c.csrMachineCause
  csrMExceptionPC := c.csrMExceptionPC
  csrMTrapVecBaseAddr := c.csrMTrapVecBaseAddr
  csrMCounterEN := c.csrMCounterEN
  csrMachineISA := c.csrMachineISA
  csrMscratch := c.csrMscratch
  csrSupervisorTrapVal := c.csrSupervisorTrapVal
  csrSupervisorCause := c.csrSupervisorCause
  csrSExceptionPC := c.csrSExceptionPC
  csrSTrapVecBaseAddr := c.csrSTrapVecBaseAddr
  csrSCounterEN := c.csrSCounterEN
  csrSscratch := c.csrSscratch
  minstret := c.minstret
  status := c.status
  rvHartID := c.rvHartID
  satp := c.satp
  csrIntPending := c.csrIntPending
  csrIntEnable := c.csrIntEnable
  trapProgramCounter := c.trapProgramCounter
  needTrap := c.needTrap
  currentPrivMode := c.currentPrivMode
  nextPrivMode := c.nextPrivMode
  ch := 0

/-- A new core in which the contexts are those of the old one. -/
structure KeepsCtx (c d : RV64Core) : Prop where
  ctx : d.ctx = c.ctx
  currentCtx : d.currentCtx = c.currentCtx
  newCtx : d.newCtx = c.newCtx
  switchCtx : d.switchCtx = c.switchCtx

theorem KeepsCtx.refl (c : RV64Core) : KeepsCtx c c := ⟨rfl, rfl, rfl, rfl⟩

theorem KeepsCtx.stay {t u : Machine β} (h : KeepsCtx t.core u.core)
    (hstores : u.ctxStores = t.ctxStores) : Stay t u where
  currentCtx := h.currentCtx
  newCtx := h.newCtx
  switchCtx := h.switchCtx
  ctxStores := hstores
  others _ _ := by rw [h.ctx]

/-- The current context is the register file and the PC that the core shows. -/
theorem getCtx_run {t : Machine β} (hin : t.core.InRange) :
    getCtx t = .ok ⟨t.core.simple.gpr, t.core.simple.currentProgramCounter⟩ t := if_pos hin

theorem modifyCtx_run {t : Machine β} (hin : t.core.InRange) (f : MiniCPUCtx → MiniCPUCtx) :
    modifyCtx f t = .ok () { t with core := { t.core with
      ctx := fun i => if i = t.core.ctxIndex then f (t.core.ctx i) else t.core.ctx i } } :=
  if_pos hin

/-- Only what is assigned to the current context matters. -/
theorem modifyCtx_congr {f g : MiniCPUCtx → MiniCPUCtx} {s : Machine β}
    (h : f (s.core.ctx s.core.ctxIndex) = g (s.core.ctx s.core.ctxIndex)) :
    modifyCtx f s = modifyCtx g s := by
  have hctx : (fun i => if i = s.core.ctxIndex then f (s.core.ctx i) else s.core.ctx i) =
      fun i => if i = s.core.ctxIndex then g (s.core.ctx i) else s.core.ctx i := by
    funext i
    by_cases hi : i = s.core.ctxIndex
    · rw [hi, h]
    · rw [if_neg hi, if_neg hi]
  unfold modifyCtx
  rw [hctx]

/-- An assignment in the current context is one in the registers that are shown. -/
theorem agrees_modifyCtx {F : Simple.RV64Core → Simple.RV64Core} {f : MiniCPUCtx → MiniCPUCtx}
    (hF : ∀ c : RV64Core, F c.simple = { c.simple with
      gpr := (f (c.ctx c.ctxIndex)).gpr
      currentProgramCounter := (f (c.ctx c.ctxIndex)).currentProgramCounter }) :
    Agrees (β := β) (Simple.modifyCore F) (modifyCtx f) where
  counts s a s' h := by
    cases h
    exact Nat.le_refl _
  follows t hin a s h _ _ := by
    cases h
    refine ⟨_, modifyCtx_run hin f, ?_, ⟨rfl, rfl, rfl, rfl, fun i hi => if_neg hi⟩⟩
    have hindex : ∀ ctx, ({ t.core with ctx := ctx } : RV64Core).ctxIndex = t.core.ctxIndex :=
      fun _ => rfl
    simp only [setting, Machine.simple, RV64Core.simple, hindex, if_true]
    exact congrArg (Simple.Machine.mk · t.mmu t.bus t.trace) (hF t.core).symm
  stays t hin := by
    unfold Stays wp
    rw [modifyCtx_run hin f]
    exact ⟨rfl, rfl, rfl, rfl, fun i hi => if_neg hi⟩

theorem agrees_setGPR (rd : BitVec 5) (value : BitVec 64) :
    Agrees (β := β) (Simple.setGPR rd value) (setGPR rd value) := by
  unfold setGPR
  split
  · rename_i hrd
    subst hrd
    exact follows_pure ()
  · rename_i hrd
    refine agrees_modifyCtx fun c => ?_
    unfold Simple.RV64Core.setGPR
    rw [if_neg hrd]
    rfl

theorem agrees_setPC (pc : BitVec 64) :
    Agrees (β := β) (Simple.modifyCore fun c => { c with currentProgramCounter := pc })
      (setPC pc) := agrees_modifyCtx fun _ => rfl

/-- A change of the registers that are not in a context. -/
theorem agrees_modifyCore {F : Simple.RV64Core → Simple.RV64Core} {g : RV64Core → RV64Core}
    (hF : ∀ c, F c.simple = (g c).simple) (hg : ∀ c, KeepsCtx c (g c)) :
    Agrees (β := β) (Simple.modifyCore F) (modifyCore g) where
  counts s a s' h := by
    cases h
    exact Nat.le_refl _
  follows t _ a s h _ _ := by
    cases h
    refine ⟨_, rfl, ?_, (hg t.core).stay rfl⟩
    exact congrArg (Simple.Machine.mk · t.mmu t.bus t.trace) (hF t.core).symm
  stays t _ := (hg t.core).stay rfl

theorem agrees_assertThat (p : Prop) [Decidable p] (a : Simple.Assertion) :
    Agrees (β := β) (Simple.assertThat p a) (assertThat p (.shared a)) :=
  .ite (follows_pure ()) (follows_throw a (nofun : ¬ Assertion.shared a = .ctxIndex))

theorem counts_getCore : Counts setting (Simple.getCore : Simple.Emu β Simple.RV64Core) := by
  intro s c s' h
  cases h
  exact Nat.le_refl _

variable {f : Simple.RV64Core → Simple.Emu β α}

/-- What is done with the current context may be done with the registers that are shown. -/
theorem agrees_getCtx {g : MiniCPUCtx → Emu β α}
    (h : ∀ c, Agrees (f c) (g ⟨c.gpr, c.currentProgramCounter⟩)) :
    Agrees (Simple.getCore >>= f) (getCtx >>= g) where
  counts := counts_bind counts_getCore fun c => (h c).counts
  follows t hin a s hrun hcount hp := by
    obtain ⟨u, hu⟩ := (h t.core.simple).follows t hin a s hrun hcount hp
    exact ⟨u, (bind_of_ok (getCtx_run hin)).trans hu.1, hu.2⟩
  stays t hin := by
    unfold Stays
    exact wp_congr (bind_of_ok (getCtx_run hin)) ((h t.core.simple).stays t hin)

/-- And what is done with the other registers. -/
theorem agrees_getCore {g : RV64Core → Emu β α} (h : ∀ c : RV64Core, Agrees (f c.simple) (g c)) :
    Agrees (Simple.getCore >>= f) (getCore >>= g) where
  counts := counts_bind counts_getCore fun c => (h (ofSimple c)).counts
  follows t hin a s hrun hcount hp := (h t.core).follows t hin a s hrun hcount hp
  stays t hin := (h t.core).stays t hin

end Primitives

/-! ## Traps, translation and control registers -/

section Calls

theorem traps_of_log {s t : List (Event β)} (h : log t = log s) : traps t = traps s := by
  rw [← Outcomes.traps_log t, h, Outcomes.traps_log]

/-- A command that leaves the core alone and raises no trap. -/
theorem agrees_sharedCall {x : Simple.Emu β α}
    (hx : ∀ s, wp x (fun _ t => t.core = s.core ∧ traps t.trace = traps s.trace)
      (fun _ _ => True) s) : Agrees x (sharedCall x) where
  counts s a s' h := by
    simp only [setting, (wp_ok (hx s) h).2, Nat.le_refl]
  follows t _ a s h _ _ := by
    change x t.simple = .ok a s at h
    have hcore : s.core = t.core.simple := (wp_ok (hx t.simple) h).1
    refine ⟨{ t with mmu := s.mmu, bus := s.bus, trace := s.trace }, ?_, ?_, ⟨rfl, rfl, rfl, rfl,
      fun _ _ => rfl⟩⟩
    · simp only [sharedCall, h]
    · exact congrArg (Simple.Machine.mk · s.mmu s.bus s.trace) hcore.symm
  stays t _ := by
    unfold Stays wp sharedCall
    cases hrun : x t.simple with
    | ok a s => exact ⟨rfl, rfl, rfl, rfl, fun _ _ => rfl⟩
    | error e s => exact (nofun : ¬ Assertion.shared e = .ctxIndex)

theorem agrees_aluExec (a b : BitVec 64) (op : ALUOp) (op32 : Bool) :
    Agrees (β := β) (aluExec a b op op32) (sharedCall (aluExec a b op op32)) := by
  refine agrees_sharedCall fun s => ?_
  unfold aluExec
  cases aluValue a b op op32 with
  | some result => exact ⟨rfl, rfl⟩
  | none => exact trivial

theorem agrees_mret : Agrees (β := β) Simple.mret mret := by
  have hreturned : Agrees (β := β) (Simple.modifyCore (·.returnedM)) (modifyCore (·.returnedM)) :=
    agrees_modifyCore (fun _ => rfl) fun _ => ⟨rfl, rfl, rfl, rfl⟩
  refine agrees_getCore fun c => .ite (follows_pure false) ?_
  exact hreturned.bind fun _ => follows_pure true

theorem agrees_sret : Agrees (β := β) Simple.sret sret := by
  have hreturned : Agrees (β := β) (Simple.modifyCore (·.returnedS)) (modifyCore (·.returnedS)) :=
    agrees_modifyCore (fun _ => rfl) fun _ => ⟨rfl, rfl, rfl, rfl⟩
  refine agrees_getCore fun c => .ite (follows_pure false) (.ite (follows_pure false) ?_)
  exact hreturned.bind fun _ => follows_pure true

theorem agrees_sfenceVma (va asid : BitVec 64) :
    Agrees (β := β) (Simple.sfenceVma va asid) (sfenceVma va asid) := by
  refine agrees_getCore fun _ => .ite (follows_pure false) (.bind ?_ fun _ => follows_pure true)
  exact agrees_sharedCall fun _ => ⟨rfl, rfl⟩

theorem csrRead_simple (c : RV64Core) (a : Option CSRAddr) : c.simple.csrRead a = c.csrRead a := by
  cases a with
  | none => rfl
  | some a => cases a <;> rfl

/-- What a CSR write makes of the registers that are shown. -/
theorem csrWrite_simple (c : RV64Core) (data : BitVec 64) (a : Option CSRAddr) :
    c.simple.csrWrite data a = (c.csrWrite data a).map (Option.map RV64Core.simple) := by
  cases a with
  | none => rfl
  | some a =>
    cases a with
    | mtvec =>
      simp only [Simple.RV64Core.csrWrite, RV64Core.csrWrite]
      split <;> rfl
    | satp =>
      have hmode : c.simple.currentPrivMode = c.currentPrivMode := rfl
      have hstatus : c.simple.status = c.status := rfl
      simp only [Simple.RV64Core.csrWrite, RV64Core.csrWrite, hmode, hstatus]
      split <;> rfl
    | _ => rfl

theorem csrWrite_keeps {c d : RV64Core} {data : BitVec 64} {a : Option CSRAddr}
    (h : c.csrWrite data a = .ok (some d)) : KeepsCtx c d := by
  unfold RV64Core.csrWrite at h
  split at h
  all_goals
    first
    | cases h; done
    | cases h; exact ⟨rfl, rfl, rfl, rfl⟩
    | (split at h <;> cases h; exact ⟨rfl, rfl, rfl, rfl⟩)

variable [SlaveAtomicIOI β]

theorem traps_of_trapped {s t : Simple.Machine β} {cause : Cause} {tval : BitVec 64}
    (h : Outcomes.Trapped s t cause tval) : traps t.trace = (cause, tval) :: traps s.trace := by
  rw [← Outcomes.traps_log, h.log]
  exact congrArg ((cause, tval) :: ·) (Outcomes.traps_log s.trace)

/-- A trap of the other core is counted, so it does not matter that the MiniCPU stops. -/
theorem agrees_raiseTrap (cause : Cause) (tval : BitVec 64) :
    Agrees (β := β) (Simple.raiseTrap cause tval) (raiseTrap cause tval) := by
  refine follows_of_counted (nofun : ¬ Assertion.trapRaised = .ctxIndex) fun s a s' h => ?_
  have htrap := wp_ok (Outcomes.raiseTrap_trapped cause tval s) h
  have htraps := traps_of_trapped htrap
  simp only [setting, htraps, List.length_cons, Nat.lt_succ_self]

theorem agrees_careful {ok : ρ → Prop} {x : Simple.Emu β ρ} (hx : Careful ok x) :
    Agrees x (sharedCall x) :=
  agrees_sharedCall fun s => wp_mono (hx s) (fun _ _ ht => ⟨ht.1.core, traps_of_log ht.1.log⟩)
    (fun _ _ _ => trivial)

theorem agrees_preExec : Agrees (β := β) Simple.preExec preExec := by
  have hsampled : Agrees (β := β) (Simple.modifyCore (·.sampled)) (modifyCore (·.sampled)) :=
    agrees_modifyCore (fun _ => rfl) fun _ => ⟨rfl, rfl, rfl, rfl⟩
  refine hsampled.bind fun _ => agrees_getCore fun c => ?_
  have hbits : c.simple.intToRaise = c.intToRaise := rfl
  rw [hbits]
  cases c.intToRaise with
  | none => exact follows_pure ()
  | some bits => exact agrees_raiseTrap _ _

theorem agrees_ecall : Agrees (β := β) Simple.ecall ecall :=
  agrees_getCore fun _ => agrees_raiseTrap _ _

end Calls

section Current

variable {t : Machine β} {f : Simple.RV64Core → Simple.Emu β α} {g : MiniCPUCtx → Emu β α}

theorem followsAt_getCtx {p : α → Prop} (hin : t.core.InRange)
    (h : FollowsAt setting p (f t.core.simple)
      (g ⟨t.core.simple.gpr, t.core.simple.currentProgramCounter⟩) t) :
    FollowsAt setting p (Simple.getCore >>= f) (getCtx >>= g) t := by
  intro a s hrun hcount hp
  obtain ⟨u, hu⟩ := h a s hrun hcount hp
  exact ⟨u, (bind_of_ok (getCtx_run hin)).trans hu.1, hu.2⟩

theorem wp_getCtx {Q : α → Machine β → Prop} {E : Assertion → Machine β → Prop}
    (hin : t.core.InRange)
    (h : wp (g ⟨t.core.simple.gpr, t.core.simple.currentProgramCounter⟩) Q E t) :
    wp (getCtx >>= g) Q E t := wp_congr (bind_of_ok (getCtx_run hin)) h

end Current

/-! ## Loads and stores -/

/-- The address is that of no register of the core. -/
def Far (a : BitVec 64) : Prop := a ≠ ctxIdReg ∧ a ≠ putcReg

/-- The two ways an instruction that returns has dealt with the contexts. -/
inductive Ends (t : Machine β) (flags : ExecFlags) (u : Machine β) : Prop
  | kept (stay : Stay t u)
  | asked (value : BitVec 64) (flags_eq : flags = retired)
      (core : u.core = { t.core with newCtx := value, switchCtx := true })
      (ctxStores : u.ctxStores = value :: t.ctxStores) (trace : u.trace = t.trace)

section Memory

variable [SlaveAtomicIOI β] {t : Machine β}

theorem agrees_memRead {a : BitVec 64} (ha : Far a) (n : Nat) :
    Agrees (β := β) (Simple.memRead a n) (memRead a n) := by
  unfold Simple.memRead memRead
  dsimp only
  rw [if_neg ha.1, if_neg ha.2]
  refine .ite ((agrees_raiseTrap _ _).bind fun _ => follows_pure none) ?_
  refine (agrees_careful (Outcomes.silent_read a n)).bind fun r => .ite (follows_pure _) ?_
  refine (agrees_assertThat _ _).bind fun _ => ?_
  exact (agrees_raiseTrap _ _).bind fun _ => follows_pure none

theorem agrees_memWrite {a : BitVec 64} (ha : Far a) (n : Nat) (src : BitVec 64) :
    Agrees (β := β) (Simple.memWrite a n src) (memWrite a n src) := by
  unfold Simple.memWrite memWrite
  dsimp only
  rw [if_neg ha.1, if_neg ha.2]
  refine .ite ((agrees_raiseTrap _ _).bind fun _ => follows_pure ()) ?_
  refine (agrees_careful (Outcomes.careful_write a n _)).bind fun r => .ite (follows_pure ()) ?_
  exact (agrees_assertThat _ _).bind fun _ => agrees_raiseTrap _ _

theorem agrees_loadGPR {a : BitVec 64} (ha : Far a) (n : Nat) (ext : BitVec (8 * n) → BitVec 64)
    (rd : BitVec 5) : Agrees (β := β) (Simple.loadGPR a n ext rd) (loadGPR a n ext rd) := by
  refine (agrees_memRead ha n).bind fun r => ?_
  cases r with
  | some buf => exact (agrees_setGPR _ _).bind fun _ => follows_pure _
  | none => exact (follows_pure ()).bind fun _ => follows_pure _

/-- A load of any address keeps the contexts. -/
theorem stays_memRead (a : BitVec 64) (n : Nat) (hin : t.core.InRange) :
    Stays setting (memRead a n) t := by
  by_cases hfar : Far a
  · exact (agrees_memRead hfar n).stays t hin
  · unfold Stays memRead
    simp only [wp_ite, wp_bind]
    refine ⟨fun _ => (by decide : Assertion.trapRaised ≠ .ctxIndex),
      fun _ => ⟨fun _ => ?_, fun hctx => ⟨fun _ => ?_, fun hputc => ?_⟩⟩⟩
    · unfold assertThat
      rw [wp_ite]
      exact ⟨fun _ => Stay.refl t, fun _ => (by decide : Assertion.ctxIdSize ≠ .ctxIndex)⟩
    · unfold assertThat
      rw [wp_ite]
      exact ⟨fun _ => Stay.refl t, fun _ => (by decide : Assertion.putcSize ≠ .ctxIndex)⟩
    · exact absurd ⟨hctx, hputc⟩ hfar

theorem stays_loadGPR (a : BitVec 64) (n : Nat) (ext : BitVec (8 * n) → BitVec 64)
    (rd : BitVec 5) (hin : t.core.InRange) : Stays setting (loadGPR a n ext rd) t := by
  refine stays_bind hin (stays_memRead a n hin) fun r u hu => ?_
  cases r with
  | some buf => exact ((agrees_setGPR _ _).bind fun _ => follows_pure _).stays u hu
  | none => exact Stay.refl u

omit [SlaveAtomicIOI β] in
theorem ends_of_stays {y : Emu β ExecFlags} (h : Stays setting y t) :
    wp y (Ends t) (fun e _ => e ≠ .ctxIndex) t :=
  wp_mono h (fun _ _ hu => .kept hu) (fun _ _ he => he)

/-- A store of any address keeps the contexts or asks for one. -/
theorem memWrite_ends (a : BitVec 64) (n : Nat) (src : BitVec 64) (hin : t.core.InRange) :
    wp (do memWrite a n src; return retired) (Ends t) (fun e _ => e ≠ .ctxIndex) t := by
  by_cases hfar : Far a
  · exact ends_of_stays (((agrees_memWrite hfar n src).bind fun _ => follows_pure _).stays t hin)
  · unfold memWrite
    simp only [wp_ite, wp_bind]
    refine ⟨fun _ => (by decide : Assertion.trapRaised ≠ .ctxIndex),
      fun _ => ⟨fun _ => ?_, fun hctx => ⟨fun _ => ?_, fun hputc => ?_⟩⟩⟩
    · unfold assertThat
      rw [wp_ite]
      exact ⟨fun _ => .asked src rfl rfl rfl rfl,
        fun _ => (by decide : Assertion.ctxIdSize ≠ .ctxIndex)⟩
    · unfold assertThat
      rw [wp_ite]
      exact ⟨fun _ => .kept ⟨rfl, rfl, rfl, rfl, fun _ _ => rfl⟩,
        fun _ => (by decide : Assertion.putcSize ≠ .ctxIndex)⟩
    · exact absurd ⟨hctx, hputc⟩ hfar

end Memory

end NextEmu.MiniCPU.Agreement
