import NextEmu.Simple.PrivModes

/-!
# A trap and its return

A trap saves the PC, the mode and the interrupt enable of what it interrupts, and the
return of its handler restores them. In between they stand in `xepc`, `xPP` and
`xPIE` of the mode of the handler, which nothing writes that stays in that mode, takes
no trap, returns from none and writes no CSR that shows them.
-/

namespace NextEmu.Simple.TrapReturn

open NextEmu.Lib.AbortState NextEmu.Lib.BitField NextEmu.Sdk
open Boundary Conformance Legality Outcomes PrivModes

/-- The modes that traps go to. -/
inductive Dest
  | supervisor
  | machine
  deriving DecidableEq, Repr

namespace Dest

def priv : Dest → PrivMode
  | supervisor => .sMode
  | machine => .mMode

/-- The position of `xIE`. -/
def ie : Dest → Nat
  | supervisor => SStatus.sie
  | machine => MStatus.mie

/-- The position of `xPIE`. -/
def pie : Dest → Nat
  | supervisor => SStatus.spie
  | machine => MStatus.mpie

/-- The mode that `xPP` names. -/
def pp : Dest → BitVec 64 → PrivMode
  | supervisor, status => sppMode (status.getLsbD SStatus.spp)
  | machine, status => mppMode status

def epc : Dest → RV64Core → BitVec 64
  | supervisor, c => c.csrSExceptionPC
  | machine, c => c.csrMExceptionPC

/-- `sret` and `mret`. -/
def ret : Dest → BitVec 32
  | supervisor => 0x10200073
  | machine => 0x30200073

/-- The CSRs that show what a trap has saved. -/
def csrs : Dest → List CSRAddr
  | supervisor => [.mstatus, .sstatus, .sepc]
  | machine => [.mstatus, .sstatus, .mepc]

end Dest

/-- The CSR that an instruction writes. -/
def csrTarget (c : RV64Core) (inst : BitVec 32) : Option CSRAddr :=
  if OpCode.ofBits (RVInst.opcode inst) = some .system ∧
      c.csrOpPermissionCheck (field inst 20 12) true = true ∧ (csrWritten c inst).isSome then
    CSRAddr.ofNumber (field inst 20 12)
  else none

/-- An instruction that returns from no trap and writes none of these CSRs. -/
structure Leaves (d : Dest) (c : RV64Core) (inst : BitVec 32) : Prop where
  sret : inst ≠ Dest.supervisor.ret
  mret : inst ≠ Dest.machine.ret
  csr : ∀ a, csrTarget c inst = some a → a ∉ d.csrs

variable {β : Type} [SlaveAtomicIOI β]

/-- A run of a handler: steps without a trap that stay in its mode and leave alone what the trap
saved. Between two steps the interrupt inputs and the bus may change. -/
inductive HandlerRun (d : Dest) (s : Machine β) : Machine β → Prop
  | refl : HandlerRun d s s
  | environment {t : Machine β} (h : HandlerRun d s t) (intStatus : IntStatus) (bus : β) :
      HandlerRun d s { t with core := { t.core with intStatus := intStatus }, bus := bus }
  | step {t u : Machine β} (h : HandlerRun d s t) (hstep : step { t with trace := [] } = .ok () u)
      (hmode : u.core.nextPrivMode = d.priv) (htraps : traps u.trace = [])
      (hinst : ∀ inst, fetchedWord { t with trace := [] } = some inst →
        Leaves d t.core.sampled inst) : HandlerRun d s u

/-- The registers of `c` hold what a trap from `s` has saved. -/
structure Saved (d : Dest) (s c : RV64Core) : Prop where
  pc : d.epc c = s.currentProgramCounter
  mode : d.pp c.status = s.nextPrivMode
  enable : c.status.getLsbD d.pie = s.status.getLsbD d.ie

/-! ## What saves it, and what leaves it alone -/

section Registers

variable {d : Dest} {s c c' : RV64Core} {inst : BitVec 32}

theorem Saved.congr (h : Saved d s c) (hstatus : c'.status = c.status)
    (hepc : d.epc c' = d.epc c) : Saved d s c' where
  pc := hepc.trans h.pc
  mode := hstatus ▸ h.mode
  enable := hstatus ▸ h.enable

/-- Both epc registers are kept. -/
theorem epc_congr (hs : c'.csrSExceptionPC = c.csrSExceptionPC)
    (hm : c'.csrMExceptionPC = c.csrMExceptionPC) : d.epc c' = d.epc c := by
  cases d with
  | supervisor => exact hs
  | machine => exact hm

theorem trapToS_saved (hp : s.nextPrivMode = .uMode ∨ s.nextPrivMode = .sMode)
    (hmode : c.currentPrivMode = s.nextPrivMode) (hstatus : c.status = s.status)
    (hpc : c.currentProgramCounter = s.currentProgramCounter) (cause : Cause)
    (tval : BitVec 64) : Saved .supervisor s (c.trapToS cause tval) where
  pc := hpc
  mode := by
    show sppMode ((setBit _ SStatus.spp c.currentPrivMode.sppBit).getLsbD SStatus.spp) = _
    rw [getLsbD_setBit, hmode]
    rcases hp with h | h
    · rw [h]
      rfl
    · rw [h]
      rfl
  enable := by
    show (setBit (setBit (setBit _ SStatus.spie (c.status.getLsbD SStatus.sie)) SStatus.sie false)
      SStatus.spp c.currentPrivMode.sppBit).getLsbD SStatus.spie = _
    rw [getLsbD_setBit_ne _ _ (by decide), getLsbD_setBit_ne _ _ (by decide), getLsbD_setBit,
      hstatus]
    exact Bool.and_true _

theorem trapToM_saved (hmode : c.currentPrivMode = s.nextPrivMode) (hstatus : c.status = s.status)
    (hpc : c.currentProgramCounter = s.currentProgramCounter) (cause : Cause)
    (tval : BitVec 64) : Saved .machine s (c.trapToM cause tval) where
  pc := hpc
  mode := by
    show mppMode (setField _ MStatus.mpp c.currentPrivMode.toBits) = _
    rw [mppMode_set, ofBits_toBits, hmode]
  enable := by
    show (setField (setBit (setBit _ MStatus.mpie (c.status.getLsbD MStatus.mie)) MStatus.mie false)
      MStatus.mpp c.currentPrivMode.toBits).getLsbD MStatus.mpie = _
    rw [getLsbD_setField, if_neg (by decide), getLsbD_setBit_ne _ _ (by decide), getLsbD_setBit,
      hstatus]
    exact Bool.and_true _

/-- A trap saves what it interrupts where the handler of its mode finds it. -/
theorem trapped_saved (hp : s.nextPrivMode.Implemented) {cause : Cause} {tval : BitVec 64}
    (hd : (s.sampled.trapped cause tval).nextPrivMode = d.priv) :
    Saved d s (s.sampled.trapped cause tval) := by
  unfold RV64Core.trapped at hd ⊢
  dsimp only at hd ⊢
  split at hd
  · rename_i hdel
    have hlow : s.nextPrivMode = .uMode ∨ s.nextPrivMode = .sMode := by
      rcases hp with h | h | h
      · exact .inl h
      · exact .inr h
      · have hm : s.sampled.currentPrivMode = .mMode := h
        simp [RV64Core.delegated, hm] at hdel
    rw [if_pos hdel]
    cases d with
    | supervisor =>
      exact trapToS_saved (c := { s.sampled with needTrap := true }) hlow rfl rfl rfl cause tval
    | machine => cases hd
  · rename_i hdel
    rw [if_neg hdel]
    cases d with
    | supervisor => cases hd
    | machine =>
      exact trapToM_saved (c := { s.sampled with needTrap := true }) rfl rfl rfl cause tval

theorem setGPR_saved (h : Saved d s c) (rd : BitVec 5) (value : BitVec 64) :
    Saved d s (c.setGPR rd value) := by
  unfold RV64Core.setGPR
  split
  · exact h
  · exact h.congr rfl (epc_congr rfl rfl)

theorem plain_saved (h : Saved d s c) (he : PlainEffect c c') : Saved d s c' := by
  cases he with
  | gpr rd value => exact setGPR_saved h rd value
  | jump rd value pc => exact (setGPR_saved h rd value).congr rfl (epc_congr rfl rfl)

/-- A write of another CSR. -/
theorem csrWrite_saved (h : Saved d s c) {data : BitVec 64} {a : Option CSRAddr}
    (ha : ∀ b, a = some b → b ∉ d.csrs) (hw : c.csrWrite data a = .ok (some c')) :
    Saved d s c' := by
  cases d
  all_goals
    unfold RV64Core.csrWrite at hw
    split at hw
    all_goals
      first
      | (cases hw; done)
      | exact absurd (by decide) (ha _ rfl)
      | (cases hw; exact h.congr rfl rfl)
      | (split at hw <;> cases hw; exact h.congr rfl rfl)

theorem code_saved (h : Saved d s c) (hinst : Leaves d c inst) (he : CodeEffect inst c c') :
    Saved d s c' := by
  rcases he with he | ⟨hop, he⟩
  · exact plain_saved h he
  cases he with
  | plain effect => exact plain_saved h effect
  | csr data c'' value permitted data_eq written =>
    refine setGPR_saved (csrWrite_saved h (fun a ha => hinst.csr a ?_) written) _ value
    unfold csrTarget
    rw [if_pos ⟨hop, permitted, data_eq ▸ rfl⟩]
    exact ha
  | mret hword => exact absurd hword hinst.mret
  | sret hword => exact absurd hword hinst.sret

theorem retired_saved (h : Saved d s c) (l : StepLocals) :
    Saved d s (c.advancePC l).retire := by
  unfold RV64Core.advancePC
  split
  · exact h.congr rfl (epc_congr rfl rfl)
  · split
    · exact h.congr rfl (epc_congr rfl rfl)
    · exact h.congr rfl (epc_congr rfl rfl)

end Registers

/-! ## The run of the handler -/

section Runs

variable {d : Dest} {s t u v : Machine β} {c : RV64Core}

theorem handlerStep_saved (h : Saved d c t.core) (hstep : step { t with trace := [] } = .ok () u)
    (htraps : traps u.trace = [])
    (hinst : ∀ inst, fetchedWord { t with trace := [] } = some inst →
      Leaves d t.core.sampled inst) : Saved d c u.core := by
  have hsampled : Saved d c t.core.sampled := h.congr rfl (epc_congr rfl rfl)
  cases wp_ok (step_effect _) hstep with
  | trapped cause tval hcore hraised =>
    rw [htraps] at hraised
    cases hraised
  | done inst c' l hword effect hcore =>
    rw [hcore]
    exact retired_saved (code_saved hsampled (hinst inst hword) effect) l

/-- What the trap saved stands there throughout the run, and so does the mode. -/
theorem handlerRun_saved (h : HandlerRun d t u) (hsaved : Saved d c t.core)
    (hmode : t.core.nextPrivMode = d.priv) :
    Saved d c u.core ∧ u.core.nextPrivMode = d.priv := by
  induction h with
  | refl => exact ⟨hsaved, hmode⟩
  | environment _ _ _ ih => exact ⟨ih.1.congr rfl (epc_congr rfl rfl), ih.2⟩
  | step _ hstep hstay htraps hinst ih =>
    exact ⟨handlerStep_saved ih.1 hstep htraps hinst, hstay⟩

/-- A run of a handler goes on a run from reset. -/
theorem handlerRun_reached (h : HandlerRun d t u) (ht : Reached (fun _ => True) t) :
    Reached (fun _ => True) u := by
  induction h with
  | refl => exact ht
  | environment _ intStatus bus ih => exact .environment ih intStatus bus
  | step _ hstep _ _ _ ih => exact .step ih hstep trivial

end Runs

/-! ## The return -/

section Return

variable {d : Dest} {s u : Machine β} {c : RV64Core}

/-- The state change of the return of a handler. -/
def Dest.returned : Dest → RV64Core → RV64Core
  | .supervisor, c => c.returnedS
  | .machine, c => c.returnedM

theorem execute_mret : execute (β := β) Dest.machine.ret =
    (do return { isInstrIllegal := !(← mret) }) := rfl

theorem execute_sret : execute (β := β) Dest.supervisor.ret =
    (do return { isInstrIllegal := !(← sret) }) := rfl

/-- The modes that a handler may return from: `sret` is for M mode too, and TSR closes it. -/
def Dest.allowed : Dest → RV64Core → Bool
  | .supervisor, c =>
    decide (PrivMode.sMode.level ≤ c.currentPrivMode.level) && !c.status.getLsbD MStatus.tsr
  | .machine, c => c.currentPrivMode == .mMode

/-- The return of a handler, where it is allowed. -/
theorem execute_ret (m : Machine β) (h : d.allowed m.core = true) :
    execute d.ret m = .ok retired { m with core := d.returned m.core } := by
  cases d with
  | supervisor =>
    obtain ⟨hlevel, hopen⟩ := (Bool.and_eq_true _ _).mp h
    have hlow : ¬ m.core.currentPrivMode.level < PrivMode.sMode.level :=
      Nat.not_lt.mpr (of_decide_eq_true hlevel)
    have htsr : ¬ m.core.status.getLsbD MStatus.tsr = true := by
      rw [Bool.not_eq_true]
      exact Bool.not_eq_true' _ ▸ hopen
    rw [execute_sret]
    unfold sret
    rw [run_bind, bind_of_ok (getCore_run m), if_neg hlow, if_neg htsr]
    rfl
  | machine =>
    have hm : ¬ m.core.currentPrivMode ≠ .mMode := fun hne => hne (beq_iff_eq.mp h)
    rw [execute_mret]
    unfold mret
    rw [run_bind, bind_of_ok (getCore_run m), if_neg hm]
    rfl

/-- Where it is not, it is illegal. -/
theorem execute_refused (m : Machine β) (h : d.allowed m.core = false) :
    execute d.ret m = .ok instrIllegal m := by
  cases d with
  | supervisor =>
    rw [execute_sret]
    unfold sret
    rw [run_bind, bind_of_ok (getCore_run m)]
    by_cases hlow : m.core.currentPrivMode.level < PrivMode.sMode.level
    · rw [if_pos hlow]
      rfl
    · have hlevel : decide (PrivMode.sMode.level ≤ m.core.currentPrivMode.level) = true :=
        decide_eq_true (Nat.le_of_not_lt hlow)
      have htsr : m.core.status.getLsbD MStatus.tsr = true := by
        simpa only [Dest.allowed, hlevel, Bool.true_and, Bool.not_eq_false'] using h
      rw [if_neg hlow, if_pos htsr]
      rfl
  | machine =>
    have hm : m.core.currentPrivMode ≠ .mMode := fun heq => by
      simp only [Dest.allowed, heq, beq_self_eq_true] at h
      cases h
    rw [execute_mret]
    unfold mret
    rw [run_bind, bind_of_ok (getCore_run m), if_pos hm]
    rfl

omit [SlaveAtomicIOI β] in
theorem getLsbD_clearMprv {p : Prop} [Decidable p] (v : BitVec 64) {i : Nat}
    (hi : i ≠ MStatus.mprv) :
    (if p then setBit v MStatus.mprv false else v).getLsbD i = v.getLsbD i := by
  split
  · exact getLsbD_setBit_ne v false hi
  · rfl

omit [SlaveAtomicIOI β] in
/-- `xIE` takes the value of `xPIE`. -/
theorem returned_enable (c : RV64Core) :
    (d.returned c).status.getLsbD d.ie = c.status.getLsbD d.pie := by
  cases d with
  | supervisor =>
    show (setBit _ SStatus.spp _).getLsbD SStatus.sie = _
    rw [getLsbD_setBit_ne _ _ (by decide), getLsbD_clearMprv _ (by decide),
      getLsbD_setBit_ne _ _ (by decide), getLsbD_setBit]
    exact Bool.and_true _
  | machine =>
    show (setField _ MStatus.mpp _).getLsbD MStatus.mie = _
    rw [getLsbD_setField, if_neg (by decide), getLsbD_clearMprv _ (by decide),
      getLsbD_setBit_ne _ _ (by decide), getLsbD_setBit]
    exact Bool.and_true _

omit [SlaveAtomicIOI β] in
/-- The return takes back what the trap saved. -/
theorem returned_restores (h : Saved d s.core c) :
    (d.returned c).nextPrivMode = s.core.nextPrivMode ∧
    (d.returned c).status.getLsbD d.ie = s.core.status.getLsbD d.ie ∧
    (d.returned c).trapProgramCounter = s.core.currentProgramCounter ∧
    (d.returned c).needTrap = true := by
  refine ⟨?_, (returned_enable c).trans h.enable, ?_, ?_⟩
  · cases d with
    | supervisor => exact h.mode
    | machine => exact h.mode
  · cases d with
    | supervisor => exact h.pc
    | machine => exact h.pc
  · cases d with
    | supervisor => rfl
    | machine => rfl

omit [SlaveAtomicIOI β] in
theorem returned_legal (h : CSRLegal c) : statusBlankZero (d.returned c).status = true := by
  cases d with
  | supervisor => exact (h.status.of_agrees (returnedS_agrees c)).blank
  | machine => exact (h.status.of_agrees (returnedM_agrees c)).blank

/-- The end of the step that executes the return. -/
theorem step_ret_eq (hword : fetchedWord u = some d.ret)
    (hallowed : d.allowed u.core.sampled = true) :
    ∃ l : StepLocals, l.flags.isInstrIllegal = false ∧
      step u = endStep l { decoding u d.ret with core := d.returned u.core.sampled } := by
  have hcore := (decoding_silent hword).1
  have hrun : execute d.ret (decoding u d.ret) =
      .ok retired { decoding u d.ret with core := d.returned (decoding u d.ret).core } :=
    execute_ret _ (by rw [hcore]; exact hallowed)
  rw [hcore] at hrun
  have hstep := step_eq hword
  rw [bind_of_ok hrun] at hstep
  exact ⟨_, rfl, hstep⟩

/-- The step that executes the return, in the mode of the handler. -/
theorem step_ret (hword : fetchedWord u = some d.ret) (hlegal : CSRLegal u.core)
    (hmode : u.core.nextPrivMode = d.priv)
    (htsr : d = .supervisor → u.core.status.getLsbD MStatus.tsr = false) :
    ∃ v, step u = .ok () v ∧ v.core = trapEnd (d.returned u.core.sampled) := by
  have hallowed : d.allowed u.core.sampled = true := by
    have hnow : u.core.sampled.currentPrivMode = d.priv := hmode
    cases d with
    | supervisor =>
      have hopen : u.core.sampled.status.getLsbD MStatus.tsr = false := htsr rfl
      simp only [Dest.allowed, hnow, hopen]
      rfl
    | machine =>
      simp only [Dest.allowed, hnow]
      rfl
  obtain ⟨l, hl, hstep⟩ := step_ret_eq hword hallowed
  have hneed : (d.returned u.core.sampled).needTrap = true := by cases d <;> rfl
  obtain ⟨hfinal, hreturns⟩ := endStep_run hl
    { decoding u d.ret with core := d.returned u.core.sampled }
  rw [← final_congr hstep] at hfinal
  rw [← returns_congr hstep] at hreturns
  refine ⟨_, eq_final (hreturns.trans (returned_legal (sampled_legal hlegal))), ?_⟩
  rw [hfinal]
  exact trapEnd_eq hneed _

/-- A trap that goes to `d`, a run of its handler, and the return: the PC, the mode and the
interrupt enable are those of the interrupted program. -/
theorem trap_return (d : Dest) (s t u : Machine β) (hreach : Reached (fun _ => True) s)
    (hp : s.core.nextPrivMode.Implemented) (htrap : step { s with trace := [] } = .ok () t)
    (hraised : traps t.trace ≠ []) (hdest : t.core.nextPrivMode = d.priv)
    (hrun : HandlerRun d t u) (hret : fetchedWord { u with trace := [] } = some d.ret)
    (htsr : d = .supervisor → u.core.status.getLsbD MStatus.tsr = false) :
    ∃ v, step { u with trace := [] } = .ok () v ∧
      v.core.currentProgramCounter = s.core.currentProgramCounter ∧
      v.core.nextPrivMode = s.core.nextPrivMode ∧
      v.core.status.getLsbD d.ie = s.core.status.getLsbD d.ie := by
  have hsaved : Saved d s.core t.core := by
    cases wp_ok (step_outcome _) htrap with
    | trapped cause tval hcore =>
      rw [hcore] at hdest ⊢
      exact (trapped_saved hp hdest).congr rfl (epc_congr rfl rfl)
    | done inst c l effect hcore hlog =>
      refine absurd (List.eq_nil_iff_forall_not_mem.mpr fun ⟨cause, tval⟩ hm => ?_) hraised
      rw [mem_traps, hlog] at hm
      simp [log] at hm
  obtain ⟨hkept, hmode⟩ := handlerRun_saved hrun hsaved hdest
  have hlegal := reached_legal (handlerRun_reached hrun (.step hreach htrap trivial))
  obtain ⟨v, hstep, hcore⟩ := step_ret (u := { u with trace := [] }) hret hlegal hmode htsr
  have hsampled : Saved d s.core u.core.sampled := hkept.congr rfl (epc_congr rfl rfl)
  obtain ⟨hnext, henable, hpc, hneed⟩ := returned_restores hsampled
  refine ⟨v, hstep, ?_, ?_, ?_⟩
  · rw [hcore]
    exact hpc
  · rw [hcore]
    exact hnext
  · rw [hcore]
    exact henable

end Return

/-- M mode code that sets the trap vector and calls; the handler returns at once. -/
def callMachine : Machine (AddrBus Empty) :=
  Machine.start (RV64Core.reset { (default : RV64Core) with currentProgramCounter := 0x80000000 })
    -- auipc x1, 0; addi x1, x1, 16; csrw mtvec, x1; ecall; nop; mret
    (Translation.memoryBus fun a =>
      (0x302000730000001300000073305090730100809300000097#192).extractLsb' (8 * a) 8)

theorem callMachine_initial : callMachine.Initial := ⟨⟨_, rfl⟩, fun _ => rfl, rfl⟩

theorem trap_return_call :
    ∃ v, step { after callMachine 5 with trace := [] } = .ok () v ∧
      v.core.currentProgramCounter = (after callMachine 3).core.currentProgramCounter ∧
      v.core.nextPrivMode = (after callMachine 3).core.nextPrivMode ∧
      v.core.status.getLsbD MStatus.mie =
        (after callMachine 3).core.status.getLsbD MStatus.mie := by
  have hnop : fetchedWord { after callMachine 4 with trace := [] } = some 0x00000013 := by
    decide +kernel
  refine trap_return .machine (after callMachine 3) (after callMachine 4) (after callMachine 5)
    (reached_after (.initial callMachine_initial) 3 (by decide +kernel)) (.inr (.inr ?_))
    (eq_final (by decide +kernel)) (by decide +kernel) (by decide +kernel)
    (.step .refl (eq_final (by decide +kernel)) (by decide +kernel) (by decide +kernel)
      fun inst hinst => ?_) (by decide +kernel) nofun
  · decide +kernel
  · rw [hnop] at hinst
    cases hinst
    exact ⟨by decide, by decide, nofun⟩

end NextEmu.Simple.TrapReturn
