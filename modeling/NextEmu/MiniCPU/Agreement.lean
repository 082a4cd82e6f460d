import NextEmu.MiniCPU.InstructionAgreement
import NextEmu.Simple.Translation

/-!
# The two cores agree

A step of `rvcore_simple` that takes no interrupt, raises no exception and touches neither of
the two registers of the MiniCPU is a step of the MiniCPU in its current context.
-/

namespace NextEmu.MiniCPU.Agreement

open NextEmu.Lib.AbortState NextEmu.Lib.BitField NextEmu.Lib.Following NextEmu.Sdk
open NextEmu.Simple
open Outcomes (traps)

variable {β α : Type}

section End

variable {t : Machine β}

theorem modifyCore_advancePC (l : StepLocals) :
    (Simple.modifyCore (·.advancePC l) : Simple.Emu β Unit) = (do
      let c ← Simple.getCore
      if c.needTrap then
        Simple.modifyCore fun d => { d with currentProgramCounter := c.trapProgramCounter }
      else if !l.flags.isNewPCSet then
        Simple.modifyCore fun d => { d with
          currentProgramCounter :=
            d.currentProgramCounter + (if l.isCompressedInst then 2 else 4) }
      else pure ()) := by
  funext s
  rw [bind_of_ok (Simple.getCore_run s), Simple.modifyCore_run]
  unfold Simple.RV64Core.advancePC
  by_cases htrap : s.core.needTrap = true
  · rw [if_pos htrap, if_pos htrap]
    rfl
  by_cases hset : l.flags.isNewPCSet = true
  · have hnot : ¬ (!l.flags.isNewPCSet) = true := by simp [hset]
    rw [if_neg htrap, if_neg htrap, if_pos hset, if_neg hnot]
    rfl
  · have hnot : (!l.flags.isNewPCSet) = true := by simp [hset]
    rw [if_neg htrap, if_neg htrap, if_neg hset, if_pos hnot]
    rfl

theorem agrees_advancePC (l : StepLocals) :
    Agrees (β := β) (Simple.modifyCore (·.advancePC l)) (advancePC l) := by
  rw [modifyCore_advancePC]
  refine agrees_getCore fun c => .ite (agrees_setPC _) (.ite ?_ (follows_pure ()))
  exact agrees_getCtx_setPC _

/-- The end of a step up to the switch of contexts. -/
def beforeSwitch (l : StepLocals) : Emu β Unit := do
  advancePC l
  modifyCore (·.retire)
  let c ← getCore
  assertThat (statusBlankZero c.status = true) (.shared .statusBlank)

def endSwitch : Emu β Unit := do
  modifyCore (·.switched)
  modify fun s => { s with globalTick := s.globalTick + 1 }

theorem endStep_eq {l : StepLocals} (hlegal : l.flags.isInstrIllegal = false) :
    endStep (β := β) l = beforeSwitch l >>= fun _ => endSwitch := by
  unfold endStep beforeSwitch endSwitch
  simp only [hlegal, Bool.false_eq_true, if_false, bind_assoc]

theorem agrees_beforeSwitch {l : StepLocals} (hlegal : l.flags.isInstrIllegal = false) :
    Agrees (β := β) (Simple.endStep l) (beforeSwitch l) := by
  have hretire : Agrees (β := β) (Simple.modifyCore (·.retire)) (modifyCore (·.retire)) :=
    agrees_modifyCore (fun _ => rfl) fun _ => ⟨rfl, rfl, rfl, rfl⟩
  unfold Simple.endStep
  simp only [hlegal, Bool.false_eq_true, if_false]
  refine (agrees_advancePC l).bind fun _ => hretire.bind fun _ => ?_
  exact agrees_getCore fun c => agrees_assertThat _ _

/-- The end of a step without a pending switch, behind an instruction that is legal. -/
theorem followsAt_endStep {l : StepLocals} (hlegal : l.flags.isInstrIllegal = false)
    (hin : t.core.InRange) (hswitch : t.core.switchCtx = false) :
    FollowsAt setting (fun _ => True) (Simple.endStep l) (endStep l) t := by
  intro a s hrun hcount hp
  obtain ⟨u, hu, hview, hstay⟩ := (agrees_beforeSwitch hlegal).follows t hin a s hrun hcount hp
  have hpending : u.core.switchCtx = false := hstay.switchCtx.trans hswitch
  have hkeep : u.core.switched = u.core := if_neg (by rw [hpending]; decide)
  have hend : endSwitch u = .ok () { u with globalTick := u.globalTick + 1 } := by
    change EStateM.Result.ok () { u with
      core := u.core.switched
      globalTick := u.globalTick + 1 } = _
    rw [hkeep]
  rw [endStep_eq hlegal]
  refine ⟨_, (bind_of_ok hu).trans hend, hview, ?_⟩
  exact ⟨hstay.currentCtx, hstay.newCtx, hstay.switchCtx, hstay.ctxStores, hstay.others⟩

end End

/-! ## Decoding and fetching -/

/-- The word that a step of `s` fetches, if it fetches one. -/
def fetchedInst [SlaveAtomicIOI β] (s : Simple.Machine β) : Option (BitVec 32) :=
  match vaddrInstFetchMMUAPI s.core.currentProgramCounter 4 { s with core := s.core.sampled } with
  | .ok (.accessOk, inst) _ => some inst
  | _ => none

section Fetch

variable {t : Machine β}

theorem agrees_emit (inst : BitVec 32) :
    Agrees (β := β) (Simple.emit (.fetched inst)) (emit (.fetched inst)) where
  counts s a s' h := by
    cases h
    exact Nat.le_refl _
  follows t _ a s h _ _ := by
    cases h
    exact ⟨_, rfl, rfl, ⟨rfl, rfl, rfl, rfl, fun _ _ => rfl⟩⟩
  stays t _ := ⟨rfl, rfl, rfl, rfl, fun _ _ => rfl⟩

variable [SlaveAtomicIOI β]

theorem counts_of_executes {inst : BitVec 32} {x : Simple.Emu β ExecFlags}
    (h : Outcomes.Executes inst x) : Counts setting x := by
  intro s flags s' hrun
  change (traps s.trace).length ≤ (traps s'.trace).length
  cases wp_ok (h s) hrun with
  | trapped cause tval trap =>
    rw [traps_of_trapped trap]
    exact Nat.le_succ _
  | illegal silent => exact Nat.le_of_eq (congrArg List.length (traps_of_log silent.log).symm)
  | done _ hlog => exact Nat.le_of_eq (congrArg List.length (traps_of_log hlog).symm)

theorem counts_execRvc (inst : BitVec 32) :
    Counts setting (Simple.execRvc inst : Simple.Emu β ExecFlags) := by
  have hexec : Outcomes.Executes inst (Simple.execRvc (β := β) inst) :=
    (Outcomes.plain_execRvc inst).executes
  exact counts_of_executes hexec

theorem counts_exec32 (inst : BitVec 32) :
    Counts setting (Simple.exec32 inst : Simple.Emu β ExecFlags) :=
  counts_of_executes (Outcomes.executes_exec32 inst)

omit [SlaveAtomicIOI β] in
theorem counts_pure (a : α) : Counts setting (pure a : Simple.Emu β α) :=
  (follows_pure a : Agrees _ _).counts

theorem counts_decoded (inst : BitVec 32) :
    Counts setting (if isCompressed inst then (do
      let flags ← Simple.execRvc inst
      return { inst := inst, isCompressedInst := true, flags := flags })
    else (do
      let flags ← Simple.exec32 inst
      return { inst := inst, isCompressedInst := false, flags := flags }) :
        Simple.Emu β StepLocals) := by
  split
  · exact counts_bind (counts_execRvc inst) fun _ => counts_pure _
  · exact counts_bind (counts_exec32 inst) fun _ => counts_pure _

theorem counts_decodeExec (inst : BitVec 32) :
    Counts setting (Simple.decodeExec inst : Simple.Emu β StepLocals) :=
  counts_bind (agrees_emit inst).counts fun _ => counts_decoded inst

theorem followsAt_decodeExec {inst : BitVec 32} (hin : t.core.InRange)
    (hfar : StaysFar t.core.simple inst) :
    FollowsAt setting (·.flags.isInstrIllegal = false) (Simple.decodeExec inst) (decodeExec inst)
      t := by
  have hemit := agrees_emit (β := β) inst
  refine followsAt_bind hin hemit.counts (fun _ => counts_decoded inst) (hemit.follows t hin)
    (fun _ _ _ _ hp => absurd trivial hp) fun _ u _ hu _ hrun => ?_
  have hcore : u.core.simple = t.core.simple :=
    congrArg Simple.Machine.core (EStateM.Result.ok.inj hrun).2.symm
  rw [← hcore] at hfar
  cases hinst : isCompressed inst with
  | true =>
    refine followsAt_bind hu (counts_execRvc inst) (fun _ => counts_pure _)
      ((acts_execRvc hinst).follows u hu hfar) (fun flags s l s' hp hl hq => ?_)
      fun flags v _ hv _ _ => ((follows_pure _).follows v hv).mono
    cases hl
    exact absurd hq hp
  | false =>
    refine followsAt_bind hu (counts_exec32 inst) (fun _ => counts_pure _)
      ((acts_exec32 hinst).follows u hu hfar) (fun flags s l s' hp hl hq => ?_)
      fun flags v _ hv _ _ => ((follows_pure _).follows v hv).mono
    cases hl
    exact absurd hq hp

theorem agrees_trapReturn (cause : Cause) (tval : BitVec 64) :
    Agrees (β := β) (do Simple.raiseTrap cause tval; return {})
      (do raiseTrap cause tval; return ({} : StepLocals)) :=
  (agrees_raiseTrap cause tval).bind fun _ => follows_pure _

/-- Between the program counter and the decoder: a trap, or a fetched word. -/
theorem followsAt_fetchDecodeExec (hin : t.core.InRange)
    (hfar : ∀ inst v, vaddrInstFetchMMUAPI t.core.simple.currentProgramCounter 4 t.simple =
      .ok (.accessOk, inst) v → StaysFar t.core.simple inst) :
    FollowsAt setting (·.flags.isInstrIllegal = false) Simple.fetchDecodeExec fetchDecodeExec
      t := by
  have hfetch := fun pc => agrees_careful (Outcomes.silent_instFetch (β := β) pc 4)
  refine followsAt_getCtx hin ?_
  dsimp only
  split
  · exact ((agrees_trapReturn _ _).follows t hin).mono
  refine followsAt_bind hin (hfetch _).counts (fun r => ?_) ((hfetch _).follows t hin)
    (fun _ _ _ _ hp => absurd trivial hp) fun r u _ hu _ hrun => ?_
  · split
    · exact ((agrees_assertThat _ _).bind fun _ => agrees_trapReturn _ _).counts
    · exact counts_decodeExec _
  · split
    · exact (((agrees_assertThat _ _).bind fun _ => agrees_trapReturn _ _).follows u hu).mono
    · rename_i hok
      have hcore : u.core.simple = t.core.simple :=
        (wp_ok ((Outcomes.silent_instFetch _ 4).wp _) hrun).core
      obtain ⟨fb, data⟩ := r
      have hfb : fb = .accessOk := Decidable.of_not_not hok
      subst hfb
      have hstay := hfar data _ hrun
      rw [← hcore] at hstay
      exact followsAt_decodeExec hu hstay

theorem counts_fetchDecodeExec :
    Counts setting (Simple.fetchDecodeExec : Simple.Emu β StepLocals) := by
  refine counts_bind counts_getCore fun c => ?_
  dsimp only
  split
  · exact (agrees_trapReturn _ _).counts
  refine counts_bind (agrees_careful (Outcomes.silent_instFetch _ 4)).counts fun r => ?_
  split
  · exact ((agrees_assertThat _ _).bind fun _ => agrees_trapReturn _ _).counts
  · exact counts_decodeExec _

end Fetch

/-! ## The step -/

/-- A state of `rvcore_simple` and one of the MiniCPU between two steps: the shared registers,
the MMU and the bus are the same, and the registers of the one are those of the current context
of the other. `simple` compares the traces too, which nothing reads. -/
structure Related (s : Simple.Machine β) (m : Machine β) : Prop where
  simple : m.simple = s
  inRange : m.core.InRange
  switchCtx : m.core.switchCtx = false

section Step

variable [SlaveAtomicIOI β] {s t : Simple.Machine β} {m : Machine β}

/-- An illegal instruction is counted at the end of its step. -/
theorem endStep_counted {l : StepLocals} (hillegal : l.flags.isInstrIllegal = true) {a : Unit}
    (h : Simple.endStep l s = .ok a t) : (traps s.trace).length < (traps t.trace).length := by
  obtain ⟨u, cause, tval, htrap, hu⟩ := wp_ok (Outcomes.endStep_illegal hillegal s) h
  have htraps := traps_of_trapped htrap
  subst hu
  change _ < (traps u.trace).length
  rw [htraps]
  exact Nat.lt_succ_self _

theorem counts_endStep (l : StepLocals) :
    Counts setting (Simple.endStep l : Simple.Emu β Unit) := by
  cases hl : l.flags.isInstrIllegal with
  | true => exact fun s a s' h => Nat.le_of_lt (endStep_counted hl h)
  | false => exact (agrees_beforeSwitch hl).counts

/-- `preExec` has raised an interrupt or has done no more than sample. -/
theorem preExec_run {a : Unit} (h : Simple.preExec s = .ok a t) (hclear : t.core.needTrap = false) :
    t = { s with core := s.core.sampled } := by
  unfold Simple.preExec at h
  rw [bind_of_ok (Simple.modifyCore_run _ s), bind_of_ok (Simple.getCore_run _)] at h
  cases hraise : s.core.sampled.intToRaise with
  | none =>
    simp only [hraise] at h
    cases h
    rfl
  | some bits =>
    simp only [hraise] at h
    have htrap := wp_ok (Outcomes.raiseTrap_trapped _ 0 _) h
    rw [htrap.core, Outcomes.trapped_needTrap] at hclear
    cases hclear

theorem followsAt_step (hin : m.core.InRange) (hswitch : m.core.switchCtx = false)
    (hfar : ∀ inst, fetchedInst m.simple = some inst → StaysFar m.core.simple inst) :
    FollowsAt setting (fun _ => True) Simple.step step m := by
  refine followsAt_bind hin agrees_preExec.counts (fun _ => ?_) (agrees_preExec.follows m hin)
    (fun _ _ _ _ hp => absurd trivial hp) fun _ u _ hu hstay hrun => ?_
  · refine counts_bind counts_getCore fun c => ?_
    split
    · exact counts_endStep {}
    · exact counts_bind counts_fetchDecodeExec counts_endStep
  have hpending : u.core.switchCtx = false := hstay.switchCtx.trans hswitch
  change FollowsAt setting _ (if u.core.needTrap then _ else _) (if u.core.needTrap then _ else _) u
  split
  · exact followsAt_endStep rfl hu hpending
  · rename_i hclear
    have hsampled := preExec_run hrun (eq_false_of_ne_true hclear)
    have hcore : u.core.simple = m.core.simple.sampled := congrArg Simple.Machine.core hsampled
    refine followsAt_bind hu counts_fetchDecodeExec counts_endStep
      (followsAt_fetchDecodeExec hu fun inst v hfetch => ?_)
      (fun l s _ s' hl h _ => endStep_counted (eq_true_of_ne_false hl) h)
      fun l v hl hv hstay' _ => followsAt_endStep hl hv (hstay'.switchCtx.trans hpending)
    rw [hcore]
    have hview : u.simple = { m.simple with core := m.core.simple.sampled } := hsampled
    rw [hcore, hview] at hfetch
    change vaddrInstFetchMMUAPI m.simple.core.currentProgramCounter 4
      { m.simple with core := m.simple.core.sampled } = _ at hfetch
    refine hfar inst ?_
    unfold fetchedInst
    rw [hfetch]

/-- The two cores agree on every step without an interrupt, an exception and an access to the
registers of the MiniCPU. -/
theorem step_agrees (h : Related s m) (hstep : Simple.step s = .ok () t)
    (htraps : traps t.trace = traps s.trace)
    (hfar : ∀ inst, fetchedInst s = some inst → StaysFar s.core inst) :
    ∃ n, step m = .ok () n ∧ Related t n ∧ n.core.currentCtx = m.core.currentCtx ∧
      n.ctxStores = m.ctxStores ∧ ∀ i, i ≠ m.core.ctxIndex → n.core.ctx i = m.core.ctx i := by
  obtain ⟨hsimple, hin, hswitch⟩ := h
  subst hsimple
  obtain ⟨n, hn, hview, hstay⟩ :=
    followsAt_step hin hswitch hfar () t hstep (congrArg List.length htraps) trivial
  refine ⟨n, hn, ⟨hview, hstay.inRange hin, hstay.switchCtx.trans hswitch⟩, hstay.currentCtx,
    hstay.ctxStores, hstay.others⟩

end Step

/-- Context 1 of a MiniCPU at `sd x2, 0(x1)`, with `x1` in main memory. -/
def storeMachine : Machine (AddrBus Empty) where
  core := { ofSimple (Simple.RV64Core.reset default) with
    currentCtx := 1
    ctx := fun i => if i.val = 1 then ⟨fun r => if r = 1 then 0x80000100 else 7, 0x80000000⟩
      else ⟨fun _ => 0, 0⟩ }
  mmu := { tlb := fun _ => {}, lastSwappedIndex := 0 }
  bus := Translation.memoryBus fun a => (0x0020b023#32).extractLsb' (8 * a) 8
  globalTick := 0
  trace := []
  ctxStores := []
  console := []

theorem storeMachine_fetches : fetchedInst storeMachine.simple = some 0x0020b023 := by
  decide +kernel

theorem step_agrees_store : ∃ n, step storeMachine = .ok () n ∧
    Related (final Simple.step storeMachine.simple) n ∧
    n.core.currentCtx = storeMachine.core.currentCtx ∧ n.ctxStores = storeMachine.ctxStores ∧
    ∀ i, i ≠ storeMachine.core.ctxIndex → n.core.ctx i = storeMachine.core.ctx i := by
  have hin : storeMachine.core.InRange := (by decide : 1 < 4)
  refine step_agrees ⟨rfl, hin, rfl⟩ (eq_final (by decide +kernel))
    (List.isEmpty_iff.mp (by decide +kernel)) fun inst hinst a ha => ?_
  rw [storeMachine_fetches] at hinst
  cases hinst
  have haddr : effectiveAddr storeMachine.simple.core 0x0020b023 = some 0x80000100 := by
    decide +kernel
  rw [haddr] at ha
  cases ha
  exact ⟨by decide, by decide⟩

end NextEmu.MiniCPU.Agreement
