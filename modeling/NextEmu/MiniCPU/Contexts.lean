import NextEmu.MiniCPU.Agreement

/-!
# The contexts of a MiniCPU

A step changes the registers of no context but the current one. It changes the current context
at its end, when the word that was stored to the context register becomes its number, and
nothing has looked at that word before. So the number is that of a context as long as the
program stores no other, and a context that is left is found again as it was.
-/

namespace NextEmu.MiniCPU.Contexts

open NextEmu.Lib.AbortState NextEmu.Lib.Following NextEmu.Sdk NextEmu.Simple Agreement
open Outcomes (traps fetches log)

variable {β : Type} [SlaveAtomicIOI β]

/-- The length of an instruction. -/
def instLength (inst : BitVec 32) : BitVec 64 := if isCompressed inst then 2 else 4

/-- What a step does to the contexts. -/
inductive StepEnds (m n : Machine β) : Prop
  /-- The switch that was pending at the start takes place, if there was one. -/
  | kept (currentCtx : n.core.currentCtx =
        if m.core.switchCtx then m.core.newCtx else m.core.currentCtx)
      (switchCtx : n.core.switchCtx = false) (ctxStores : n.ctxStores = m.ctxStores)
      (others : ∀ i, i ≠ m.core.ctxIndex → n.core.ctx i = m.core.ctx i)
  /-- The instruction was a store to the context register. -/
  | asked (value : BitVec 64) (inst : BitVec 32)
      (fetched : fetches n.trace = inst :: fetches m.trace)
      (currentCtx : n.core.currentCtx = value) (switchCtx : n.core.switchCtx = false)
      (ctxStores : n.ctxStores = value :: m.ctxStores)
      (own : n.core.ctx m.core.ctxIndex =
        { m.core.ctx m.core.ctxIndex with
          currentProgramCounter :=
            (m.core.ctx m.core.ctxIndex).currentProgramCounter + instLength inst })
      (others : ∀ i, i ≠ m.core.ctxIndex → n.core.ctx i = m.core.ctx i)

section Step

variable {t : Machine β}

theorem decodeExec_ends (inst : BitVec 32) (hin : t.core.InRange) :
    wp (decodeExec inst) (fun l u => l.isCompressedInst = isCompressed inst ∧
      Ends { t with trace := .fetched inst :: t.trace } l.flags u)
      (fun e _ => e ≠ .ctxIndex) t := by
  unfold decodeExec
  rw [wp_bind]
  change wp _ _ _ { t with trace := .fetched inst :: t.trace }
  cases hinst : isCompressed inst with
  | true =>
    simp only [if_true, wp_bind, wp_pure]
    exact wp_mono ((acts_execRvc hinst).ends _ hin) (fun _ _ h => ⟨trivial, h⟩) (fun _ _ h => h)
  | false =>
    simp only [Bool.false_eq_true, if_false, wp_bind, wp_pure]
    exact wp_mono ((acts_exec32 hinst).ends _ hin) (fun _ _ h => ⟨trivial, h⟩) (fun _ _ h => h)

/-- The machine between the fetch of a word and its execution. -/
structure Fetched (inst : BitVec 32) (t u : Machine β) : Prop where
  core : u.core = t.core
  ctxStores : u.ctxStores = t.ctxStores
  fetched : fetches u.trace = inst :: fetches t.trace

theorem sharedCall_silent {ρ : Type} {x : Simple.Emu β ρ} (hx : Outcomes.IsSilent x)
    (t : Machine β) :
    wp (sharedCall x) (fun _ u => u.core = t.core ∧ u.ctxStores = t.ctxStores ∧
      log u.trace = log t.trace) (fun e _ => e ≠ .ctxIndex) t := by
  have hrun := hx.wp t.simple
  unfold wp sharedCall at *
  cases hs : x t.simple with
  | ok r s =>
    rw [hs] at hrun
    exact ⟨rfl, rfl, hrun.log⟩
  | error e s => exact nofun

theorem fetchDecodeExec_ends (hin : t.core.InRange) :
    wp fetchDecodeExec (fun l u => ∃ inst v, Fetched inst t v ∧
      l.isCompressedInst = isCompressed inst ∧ Ends v l.flags u)
      (fun e _ => e ≠ .ctxIndex) t := by
  refine wp_getCtx hin ?_
  dsimp only
  rw [wp_ite]
  refine ⟨fun _ => nofun, fun _ => ?_⟩
  rw [wp_bind]
  refine wp_mono (sharedCall_silent (Outcomes.silent_instFetch _ 4) t) (fun r u hu => ?_)
    (fun _ _ he => he)
  obtain ⟨hcore, hstores, hlog⟩ := hu
  rw [wp_ite]
  refine ⟨fun _ => ?_, fun _ => ?_⟩
  · unfold assertThat
    rw [wp_bind, wp_ite]
    exact ⟨fun _ => nofun, fun _ => nofun⟩
  · have hin' : u.core.InRange := by
      rw [hcore]
      exact hin
    refine wp_mono (decodeExec_ends r.2 hin') (fun l v hv => ?_) (fun _ _ he => he)
    refine ⟨r.2, { u with trace := .fetched r.2 :: u.trace }, ⟨hcore, hstores, ?_⟩, hv⟩
    have hfetches : fetches u.trace = fetches t.trace := by
      rw [← Outcomes.fetches_log u.trace, hlog, Outcomes.fetches_log]
    exact congrArg (r.2 :: ·) hfetches

/-! The end of a step, where the switch takes place. -/

variable {u : Machine β} {l : StepLocals}

omit [SlaveAtomicIOI β]

theorem endStep_illegal (hl : l.flags.isInstrIllegal = true) :
    endStep l u = .error .trapRaised u := by
  unfold endStep
  simp only [hl, if_true]
  rfl

theorem endStep_kept (hin : u.core.InRange) :
    wp (endStep l) (fun _ n => ∃ w, Stay u w ∧ n.core = w.core.switched ∧
      n.ctxStores = w.ctxStores) (fun e _ => e ≠ .ctxIndex) u := by
  cases hl : l.flags.isInstrIllegal with
  | true => exact wp_congr (endStep_illegal hl) nofun
  | false =>
    rw [endStep_eq hl, wp_bind]
    exact wp_mono ((agrees_beforeSwitch hl).stays u hin) (fun _ w hstay => ⟨w, hstay, rfl, rfl⟩)
      (fun _ _ he => he)

theorem advancePC_run (hclear : u.core.needTrap = false) (hset : l.flags.isNewPCSet = false) :
    advancePC l u = modifyCtx (fun x => { x with
      currentProgramCounter := x.currentProgramCounter + (if l.isCompressedInst then 2 else 4) })
      u := by
  have htrap : ¬ u.core.needTrap = true := by simp [hclear]
  have hnew : (!l.flags.isNewPCSet) = true := by simp [hset]
  change (if u.core.needTrap then setPC u.core.trapProgramCounter
    else if !l.flags.isNewPCSet then _ else pure () : Emu β Unit) u = _
  rw [if_neg htrap, if_pos hnew]
  exact congrFun (getCtx_setPC fun x =>
    x.currentProgramCounter + (if l.isCompressedInst then 2 else 4)) u

/-- The contexts with the PC of the current one behind the instruction. -/
def advanced (c : RV64Core) (l : StepLocals) : Fin nrCtx → MiniCPUCtx :=
  fun i => if i = c.ctxIndex then { c.ctx i with
    currentProgramCounter :=
      (c.ctx i).currentProgramCounter + (if l.isCompressedInst then 2 else 4) } else c.ctx i

theorem beforeSwitch_advanced (hin : u.core.InRange) (hclear : u.core.needTrap = false)
    (hset : l.flags.isNewPCSet = false) :
    wp (beforeSwitch l)
      (fun _ v => v = { u with core := RV64Core.retire { u.core with ctx := advanced u.core l } })
      (fun e _ => e ≠ .ctxIndex) u := by
  have hadvance := (advancePC_run (l := l) hclear hset).trans (modifyCtx_run hin _)
  unfold beforeSwitch
  refine wp_congr (bind_of_ok hadvance) ?_
  rw [wp_bind]
  change wp (assertThat _ _) _ _ _
  unfold assertThat
  rw [wp_ite]
  exact ⟨fun _ => rfl, fun _ => nofun⟩

theorem switched_of_pending {c : RV64Core} (h : c.switchCtx = true) :
    c.switched = { c with switchCtx := false, currentCtx := c.newCtx } := if_pos h

/-- The store to the context register takes effect behind the update of the PC. -/
theorem endStep_asked (hin : u.core.InRange) (hclear : u.core.needTrap = false)
    (hswitch : u.core.switchCtx = true) (hflags : l.flags = retired) :
    wp (endStep l) (fun _ n => n.trace = u.trace ∧ n.ctxStores = u.ctxStores ∧
      n.core.currentCtx = u.core.newCtx ∧ n.core.switchCtx = false ∧
      n.core.ctx = advanced u.core l) (fun e _ => e ≠ .ctxIndex) u := by
  have hlegal : l.flags.isInstrIllegal = false := by rw [hflags]; rfl
  have hset : l.flags.isNewPCSet = false := by rw [hflags]; rfl
  rw [endStep_eq hlegal, wp_bind]
  refine wp_mono (beforeSwitch_advanced hin hclear hset) (fun _ v hv => ?_) (fun _ _ he => he)
  have hpending : v.core.switchCtx = true := by
    rw [hv]
    exact hswitch
  change v.trace = _ ∧ v.ctxStores = _ ∧ v.core.switched.currentCtx = _ ∧
    v.core.switched.switchCtx = _ ∧ v.core.switched.ctx = _
  rw [switched_of_pending hpending, hv]
  exact ⟨rfl, rfl, rfl, rfl, rfl⟩

theorem switched_currentCtx (c : RV64Core) :
    c.switched.currentCtx = if c.switchCtx then c.newCtx else c.currentCtx := by
  unfold RV64Core.switched
  split <;> rfl

theorem switched_switchCtx (c : RV64Core) : c.switched.switchCtx = false := by
  unfold RV64Core.switched
  split
  · rfl
  · rename_i h
    exact eq_false_of_ne_true h

theorem switched_ctx (c : RV64Core) : c.switched.ctx = c.ctx := by
  unfold RV64Core.switched
  split <;> rfl

theorem preExec_ends (m : Machine β) :
    wp preExec (fun _ u => u = { m with core := m.core.sampled }) (fun e _ => e ≠ .ctxIndex) m := by
  unfold preExec
  simp only [wp_bind]
  show wp _ _ _ { m with core := m.core.sampled }
  cases m.core.sampled.intToRaise with
  | none => exact rfl
  | some bits => exact (by decide : Assertion.trapRaised ≠ .ctxIndex)

variable {m n : Machine β}

theorem StepEnds.of_kept {v w : Machine β} (hcore : v.core = m.core.sampled)
    (hstores : v.ctxStores = m.ctxStores) (hstay : Stay v w) (hn : n.core = w.core.switched)
    (hns : n.ctxStores = w.ctxStores) : StepEnds m n := by
  refine .kept ?_ ?_ (hns.trans (hstay.ctxStores.trans hstores)) fun i hi => ?_
  · rw [hn, switched_currentCtx, hstay.switchCtx, hstay.newCtx, hstay.currentCtx, hcore]
    rfl
  · rw [hn, switched_switchCtx]
  · have hi' : i ≠ v.core.ctxIndex := by
      rw [hcore]
      exact hi
    rw [hn, switched_ctx, hstay.others i hi', hcore]
    rfl

variable [SlaveAtomicIOI β]

/-- Every step that returns has one of the two effects, and no step leaves the array of contexts
from a context that is there. -/
theorem step_ends (hin : m.core.InRange) :
    wp step (fun _ n => StepEnds m n) (fun e _ => e ≠ .ctxIndex) m := by
  unfold step
  rw [wp_bind]
  refine wp_mono (preExec_ends m) (fun _ u hu => ?_) (fun _ _ he => he)
  subst hu
  rw [wp_bind]
  change wp (fetchDecodeExec >>= fun l => endStep l) _ _ _
  rw [wp_bind]
  refine wp_mono (fetchDecodeExec_ends hin) (fun l u hu => ?_) (fun _ _ he => he)
  obtain ⟨inst, v, hv, hl, hends⟩ := hu
  have hvin : v.core.InRange := by
    rw [hv.core]
    exact hin
  cases hends with
  | kept stay =>
    refine wp_mono (endStep_kept (stay.inRange hvin)) (fun _ n hn => ?_) (fun _ _ he => he)
    obtain ⟨w, hstay, hcore, hstores⟩ := hn
    exact .of_kept hv.core hv.ctxStores (stay.trans hstay) hcore hstores
  | asked value hflags hcore hstores htrace =>
    have hu : u.core = { m.core.sampled with newCtx := value, switchCtx := true } := by
      rw [hcore, hv.core]
    have huin : u.core.InRange := by
      rw [hu]
      exact hin
    have hclear : u.core.needTrap = false := by rw [hu]; rfl
    have hswitch : u.core.switchCtx = true := by rw [hu]
    refine wp_mono (endStep_asked huin hclear hswitch hflags) (fun _ n hn => ?_) (fun _ _ he => he)
    obtain ⟨hnt, hns, hcur, hsw, hctx⟩ := hn
    have hidx : u.core.ctxIndex = m.core.ctxIndex := by rw [hu]; rfl
    have hold : u.core.ctx = m.core.ctx := by rw [hu]; rfl
    refine .asked value inst ?_ ?_ hsw ?_ ?_ fun i hi => ?_
    · rw [hnt, htrace, hv.fetched]
    · rw [hcur, hu]
    · rw [hns, hstores, hv.ctxStores]
    · rw [hctx]
      unfold advanced instLength
      rw [hidx, hold, hl, if_pos rfl]
    · rw [hctx]
      unfold advanced
      rw [hidx, hold, if_neg hi]

end Step

/-! ## Runs -/

section Runs

variable {m n : Machine β}

/-- Only from a context that is there a step returns. -/
theorem inRange_of_step (h : step m = .ok () n) : m.core.InRange := by
  unfold step at h
  obtain ⟨_, u, hpre, h⟩ := bind_ok h
  have hu := wp_ok (preExec_ends m) hpre
  subst hu
  obtain ⟨c, _, hget, h⟩ := bind_ok h
  cases hget
  obtain ⟨l, _, hfetch, -⟩ := bind_ok (x := fetchDecodeExec) h
  unfold fetchDecodeExec at hfetch
  obtain ⟨x, _, hctx, -⟩ := bind_ok hfetch
  unfold getCtx at hctx
  split at hctx
  · assumption
  · cases hctx

theorem next_ends (h : Next m n) : m.core.InRange ∧ StepEnds m n := by
  obtain ⟨i, b, hstep⟩ := h
  have hin : (m.withInputs i b).core.InRange := inRange_of_step hstep
  refine ⟨hin, ?_⟩
  cases wp_ok (step_ends hin) hstep with
  | kept hcur hsw hstores hothers => exact .kept hcur hsw hstores hothers
  | asked value inst hf hcur hsw hstores hown hothers =>
    exact .asked value inst hf hcur hsw hstores hown hothers

/-- The machines that a run from reset reaches. -/
inductive Reached : Machine β → Prop
  | initial {s : Machine β} (h : s.Initial) : Reached s
  | step {s t : Machine β} (h : Reached s) (hstep : Next s t) : Reached t

/-- The machine after `n` steps without outside influence. -/
def after (s : Machine β) : Nat → Machine β
  | 0 => s
  | n + 1 => final step (after s n)

theorem next_after {s : Machine β} {k : Nat} (h : returns step (after s k) = true) :
    Next (after s k) (after s (k + 1)) :=
  ⟨(after s k).core.intStatus, (after s k).bus, eq_final h⟩

theorem reached_after {s : Machine β} (h : s.Initial) (k : Nat)
    (hrun : ∀ i, i < k → returns step (after s i) = true) : Reached (after s k) := by
  induction k with
  | zero => exact .initial h
  | succ k ih =>
    exact .step (ih fun i hi => hrun i (Nat.lt_succ_of_lt hi))
      (next_after (hrun k (Nat.lt_succ_self k)))

/-- `currentCtx` is the number of a context exactly while the program has stored no other. -/
theorem reached_inRange (h : Reached m) :
    m.core.switchCtx = false ∧ (m.core.InRange ↔ ∀ v ∈ m.ctxStores, v.toNat < nrCtx) := by
  induction h with
  | @initial s h =>
    have hin : s.core.InRange := by
      unfold RV64Core.InRange
      rw [h.currentCtx]
      decide
    refine ⟨h.switchCtx, iff_of_true hin ?_⟩
    rw [h.ctxStores]
    exact nofun
  | @step s t h hstep ih =>
    obtain ⟨hin, hends⟩ := next_ends hstep
    have hsmall := ih.2.mp hin
    cases hends with
    | kept hcur hsw hstores =>
      have hsame : t.core.currentCtx = s.core.currentCtx := by
        rw [hcur, ih.1]
        rfl
      refine ⟨hsw, iff_of_true ?_ ?_⟩
      · unfold RV64Core.InRange
        rw [hsame]
        exact hin
      · rw [hstores]
        exact hsmall
    | asked value inst _ hcur hsw hstores =>
      refine ⟨hsw, ?_⟩
      unfold RV64Core.InRange
      rw [hcur, hstores, List.forall_mem_cons]
      exact ⟨fun hv => ⟨hv, hsmall⟩, fun hv => hv.1⟩

/-- No access to `ctx[currentCtx]` is outside the array: not in the next step, whatever the inputs
and the bus are then, nor in the functions of the debugger. -/
structure AccessesInside (s : Machine β) : Prop where
  step : ∀ i b t, step (s.withInputs i b) ≠ .error .ctxIndex t
  dumpProgramCounter : ∀ t, dumpProgramCounter s ≠ .error .ctxIndex t
  writeProgramCounter : ∀ v t, writeProgramCounter v s ≠ .error .ctxIndex t
  setGPRByIndex : ∀ r v t, setGPRByIndex r v s ≠ .error .ctxIndex t
  dumpAllRegister : ∀ t, dumpAllRegister s ≠ .error .ctxIndex t
  writeAllRegister : ∀ regs t, writeAllRegister regs s ≠ .error .ctxIndex t

theorem accessesInside_of (hin : m.core.InRange) : AccessesInside m where
  step i b t herr := wp_error (step_ends (m := m.withInputs i b) hin) herr rfl
  dumpProgramCounter t herr := by
    unfold dumpProgramCounter at herr
    rw [bind_of_ok (getCtx_run hin)] at herr
    cases herr
  writeProgramCounter v t herr := wp_error ((agrees_setPC v).stays m hin) herr rfl
  setGPRByIndex r v t herr := wp_error ((agrees_setGPR r v).stays m hin) herr rfl
  dumpAllRegister t herr := by
    unfold dumpAllRegister at herr
    rw [bind_of_ok (getCtx_run hin)] at herr
    cases herr
  writeAllRegister regs t herr := by
    unfold writeAllRegister at herr
    split at herr
    · cases herr
    · rw [bind_of_ok (modifyCtx_run hin _)] at herr
      cases herr

/-- In every state that a run reaches the accesses to the current context are inside the array
exactly if the program has stored no other number to the context register. -/
theorem inRange_iff_stores (s : Machine β) (h : Reached s) :
    (s.core.InRange ∧ AccessesInside s) ↔ ∀ v ∈ s.ctxStores, v.toNat < nrCtx := by
  rw [← (reached_inRange h).2]
  exact ⟨fun h => h.1, fun hin => ⟨hin, accessesInside_of hin⟩⟩

end Runs

/-- A MiniCPU after a reset, with all contexts at `lui x1, 0x66d; addi x1, x1, -776;
addi x2, x0, value; sd x2, 0(x1)`. -/
def switchMachine (value : BitVec 12) : Machine (AddrBus Empty) where
  core := RV64Core.reset (ofSimple { (default : Simple.RV64Core) with
    currentProgramCounter := 0x80000000 })
  mmu := { tlb := fun _ => {}, lastSwappedIndex := 0 }
  bus := Translation.memoryBus fun a =>
    (0x0020b023#32 ++ (value ++ 0x00113#20) ++ 0xcf8080930066d0b7#64).extractLsb' (8 * a) 8
  globalTick := 0
  trace := []
  ctxStores := []
  console := []

theorem switchMachine_initial (value : BitVec 12) : (switchMachine value).Initial :=
  ⟨⟨_, rfl⟩, rfl, rfl, rfl, fun _ => rfl, rfl, rfl⟩

theorem inRange_iff_stores_three :
    ((after (switchMachine 3) 4).core.InRange ∧ AccessesInside (after (switchMachine 3) 4)) ↔
      ∀ v ∈ (after (switchMachine 3) 4).ctxStores, v.toNat < nrCtx :=
  inRange_iff_stores _ (reached_after (switchMachine_initial 3) 4 (by decide +kernel))

/-- A program that stores 5 has left the four contexts. -/
theorem fifth_context : ¬ ∀ s : Machine (AddrBus Empty), Reached s →
    s.core.InRange ∧ AccessesInside s := by
  intro h
  have hreached := reached_after (switchMachine_initial 5) 4 (by decide +kernel)
  have hin : (after (switchMachine 5) 4).core.currentCtx.toNat < nrCtx := (h _ hreached).1
  revert hin
  decide +kernel

/-! ## Isolation -/

section Isolation

variable {m n : Machine β} {ms : Nat → Machine β} {c : Fin nrCtx} {k l last : Nat}

/-- The machine is in context `c`. -/
def InCtx (s : Machine β) (c : Fin nrCtx) : Prop := s.core.currentCtx.toNat = c.val

instance (s : Machine β) (c : Fin nrCtx) : Decidable (InCtx s c) :=
  inferInstanceAs (Decidable (s.core.currentCtx.toNat = c.val))

omit [SlaveAtomicIOI β] in
theorem ctxIndex_eq (h : InCtx m c) : m.core.ctxIndex = c := by
  refine Fin.ext ?_
  change m.core.currentCtx.toNat % nrCtx = c.val
  rw [h, Nat.mod_eq_of_lt c.isLt]

/-- A step in one context leaves the others alone. -/
theorem next_frame (h : Next m n) (hc : ¬ InCtx m c) : n.core.ctx c = m.core.ctx c := by
  obtain ⟨hin, hends⟩ := next_ends h
  have hne : c ≠ m.core.ctxIndex := by
    rintro rfl
    exact hc (Nat.mod_eq_of_lt hin).symm
  cases hends with
  | kept _ _ _ hothers => exact hothers c hne
  | asked _ _ _ _ _ _ _ hothers => exact hothers c hne

/-- Context `c` stores the number of another context in step `k`, and is the current one again in
state `l` for the first time since. -/
structure Resumed (ms : Nat → Machine β) (c : Fin nrCtx) (k l : Nat) : Prop where
  later : k < l
  running : InCtx (ms k) c
  store : ∃ value, (ms (k + 1)).ctxStores = value :: (ms k).ctxStores ∧ value.toNat ≠ c.val
  away : ∀ j, k < j → j < l → ¬ InCtx (ms j) c
  back : InCtx (ms l) c

/-- While a context is not the current one it stays as it is. -/
theorem run_frame (hrun : ∀ j, j < last → Next (ms j) (ms (j + 1)))
    (haway : ∀ j, k < j → j < l → ¬ InCtx (ms j) c) (d : Nat) (hd : k + 1 + d ≤ l)
    (hlast : l ≤ last) : (ms (k + 1 + d)).core.ctx c = (ms (k + 1)).core.ctx c := by
  induction d with
  | zero => rfl
  | succ d ih =>
    have hnext := hrun (k + 1 + d) (by omega)
    have hsame := next_frame hnext (haway (k + 1 + d) (by omega) (by omega))
    exact hsame.trans (ih (by omega))

/-- In every run a step changes no context but the current one, and a context that gives way to
another is resumed behind the store, with the registers that it had. -/
theorem contexts_isolated (ms : Nat → Machine β) (last : Nat)
    (hrun : ∀ k, k < last → Next (ms k) (ms (k + 1))) :
    (∀ k, k < last → ∀ c i, InCtx (ms k) c → i ≠ c →
      (ms (k + 1)).core.ctx i = (ms k).core.ctx i) ∧
    ∀ c k l, l ≤ last → Resumed ms c k l →
      ∃ inst, fetches (ms (k + 1)).trace = inst :: fetches (ms k).trace ∧
        (ms l).core.ctx c =
          { gpr := ((ms k).core.ctx c).gpr
            currentProgramCounter :=
              ((ms k).core.ctx c).currentProgramCounter + instLength inst } := by
  refine ⟨fun k hk c i hc hi => ?_, fun c k l hl h => ?_⟩
  · refine next_frame (hrun k hk) fun hi' => hi (Fin.ext ?_)
    exact hi'.symm.trans hc
  · obtain ⟨value, hstore, -⟩ := h.store
    have hnext := hrun k (Nat.lt_of_lt_of_le h.later hl)
    cases (next_ends hnext).2 with
    | kept _ _ hstores =>
      rw [hstores] at hstore
      exact absurd hstore.symm (List.cons_ne_self value _)
    | asked _ inst hfetched _ _ _ hown =>
      rw [ctxIndex_eq h.running] at hown
      have hframe := run_frame hrun h.away (l - (k + 1)) (by have := h.later; omega) hl
      have hsum : k + 1 + (l - (k + 1)) = l := by
        have := h.later
        omega
      rw [hsum] at hframe
      exact ⟨inst, hfetched, hframe.trans hown⟩

end Isolation

/-- Context 0 at `sd x2, 0(x1)` and context 1 at `sd x0, 0(x1)` behind it, each with the address
of the context register in `x1` and the number 1 in `x2`. -/
def twoContexts : Machine (AddrBus Empty) where
  core := { RV64Core.reset (ofSimple default) with
    ctx := fun i => ⟨fun r => if r = 1 then ctxIdReg else if r = 2 then 1 else 0,
      if i.val = 0 then 0x80000000 else 0x80000004⟩ }
  mmu := { tlb := fun _ => {}, lastSwappedIndex := 0 }
  bus := Translation.memoryBus fun a => (0x0000b0230020b023#64).extractLsb' (8 * a) 8
  globalTick := 0
  trace := []
  ctxStores := []
  console := []

theorem twoContexts_run : ∀ k, k < 2 → Next (after twoContexts k) (after twoContexts (k + 1)) := by
  have hreturns : ∀ k, k < 2 → returns step (after twoContexts k) = true := by decide +kernel
  exact fun k hk => next_after (hreturns k hk)

/-- Context 0 of it gives way to context 1, which gives way to context 0. -/
theorem twoContexts_resumed : Resumed (after twoContexts) ⟨0, by decide⟩ 0 2 where
  later := by decide
  running := by decide +kernel
  store := ⟨1, by decide +kernel, by decide⟩
  away j hlo hhi := by
    have hj : j = 1 := by omega
    subst hj
    decide +kernel
  back := by decide +kernel

theorem contexts_isolated_two :
    ∃ inst, fetches (after twoContexts 1).trace = inst :: fetches (after twoContexts 0).trace ∧
      (after twoContexts 2).core.ctx ⟨0, by decide⟩ =
        { gpr := ((after twoContexts 0).core.ctx ⟨0, by decide⟩).gpr
          currentProgramCounter :=
            ((after twoContexts 0).core.ctx ⟨0, by decide⟩).currentProgramCounter +
              instLength inst } :=
  (contexts_isolated (after twoContexts) 2 twoContexts_run).2 _ 0 2 (by decide) twoContexts_resumed

end NextEmu.MiniCPU.Contexts
