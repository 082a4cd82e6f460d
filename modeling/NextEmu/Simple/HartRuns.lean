import NextEmu.Lib.RiscVMachine
import NextEmu.Simple.CompressedFetch
import NextEmu.Simple.ControlTransfer
import NextEmu.Simple.RvcConformance
import NextEmu.Simple.Runs

/-!
# Runs of the core are runs of the manual's machine

A core that no interrupt disturbs runs a program like the machine of the manual, for as
long as that machine has steps: the registers, the PC and the bytes of memory are the same
behind every step, and no assertion stops the core. `Serves` says what the memory of a
program is to the access paths; here it is main memory itself, without translation.
-/

namespace NextEmu.Simple.HartRuns

open NextEmu.Lib.AbortState NextEmu.Lib.BitField NextEmu.Lib.ByteMemory NextEmu.Lib.RiscV
open NextEmu.Sdk
open CompressedFetch Conformance ControlTransfer IntegerConformance LoadStore Outcomes
open RvcConformance

/-! ## The code of a decoded word -/

section Decoded

variable {β : Type} [SlaveAtomicIOI β] {m : Machine β} {w : BitVec 32}

/-- A JALR of four bytes has an even base. -/
def EvenBase (x : Reg → BitVec 64) : BaseInst → Prop
  | .jalr _ rs1 _ => x rs1 % 2 = 0
  | _ => True

theorem base_length (i : BaseInst) : isCompressed i.encode = false := by
  cases i with
  | comp i => exact (IntegerConformance.opcode_encode i).2
  | mem i => exact (LoadStore.encode_opcode i).1
  | jal rd imm => exact (ControlTransfer.encode_opcode (.jal rd imm)).1
  | jalr rd rs1 imm => exact (ControlTransfer.encode_opcode (.jalr rd rs1 imm)).1
  | branch op rs1 rs2 imm => exact (ControlTransfer.encode_opcode (.branch op rs1 rs2 imm)).1

theorem performs_transfer {b : BaseInst} {i : Transfer} (hword : b.encode = i.encode)
    (heffect : b.toInst.effect 4 m.core.gpr m.core.currentProgramCounter =
      .jump i.rd (m.core.currentProgramCounter + 4)
        (i.target m.core.gpr m.core.currentProgramCounter)) (h : Coded i m) :
    Performs 4 (execute b.encode) m
      (b.toInst.effect 4 m.core.gpr m.core.currentProgramCounter) := by
  rw [hword, heffect]
  exact h

/-- The code of an instruction of four bytes performs its effect. -/
theorem base_performs {i : BaseInst} (heven : m.core.currentProgramCounter % 2 = 0)
    (hbase : EvenBase m.core.gpr i) : Performs 4 (execute i.encode) m
      (i.toInst.effect 4 m.core.gpr m.core.currentProgramCounter) := by
  cases i with
  | comp i =>
    have hexec : execute i.encode m = exec32 i.encode m := by
      unfold execute
      rw [(IntegerConformance.opcode_encode i).2]
      rfl
    exact hexec.trans (comp_run m i)
  | mem i =>
    cases i with
    | load op rd rs1 imm => exact load_run op rd rs1 imm m
    | store width rs1 rs2 imm => exact store_run width rs1 rs2 imm m
  | jal rd imm => exact performs_transfer (i := .jal rd imm) rfl rfl (coded _ heven trivial)
  | jalr rd rs1 imm => exact performs_transfer (i := .jalr rd rs1 imm) rfl rfl (coded _ heven hbase)
  | branch op rs1 rs2 imm =>
    exact performs_transfer (i := .branch op rs1 rs2 imm) rfl rfl (coded _ heven trivial)

/-- The decoders of the manual and of the source take the same length. -/
theorem decoded_length {len : BitVec 64} {i : Inst} (h : decode w = some (len, i)) :
    len = if isCompressed w then 2 else 4 := by
  unfold decode at h
  split at h
  · obtain ⟨b, hb, hi⟩ := Option.map_eq_some_iff.mp h
    cases hi
    rw [← BaseInst.encode_of_decode hb, base_length]
    rfl
  · obtain ⟨j, hj, hi⟩ := Option.map_eq_some_iff.mp h
    cases hi
    rw [isCompressed_of_expand w hj]
    rfl

/-- The word is no JALR of four bytes with an odd base, which the code refuses. -/
def EvenJump (w : BitVec 32) (x : Reg → BitVec 64) : Prop :=
  match BaseInst.decode w with
  | some (.jalr _ rs1 _) => x rs1 % 2 = 0
  | _ => True

instance (w : BitVec 32) (x : Reg → BitVec 64) : Decidable (EvenJump w x) := by
  unfold EvenJump
  split <;> infer_instance

/-- The code of a word that the manual decodes performs the effect of its instruction. -/
theorem decoded_performs {len : BitVec 64} {i : Inst} (h : decode w = some (len, i))
    (heven : m.core.currentProgramCounter % 2 = 0) (hjump : EvenJump w m.core.gpr)
    (hzero : m.core.gpr 0 = 0) :
    Performs len (execute w) m (i.effect len m.core.gpr m.core.currentProgramCounter) := by
  unfold decode at h
  split at h
  · obtain ⟨b, hb, hi⟩ := Option.map_eq_some_iff.mp h
    cases hi
    have hbase : EvenBase m.core.gpr b := by
      unfold EvenJump at hjump
      rw [hb] at hjump
      cases b with
      | jalr rd rs1 imm => exact hjump
      | comp | mem | jal | branch => trivial
    have hp := base_performs heven hbase
    rw [BaseInst.encode_of_decode hb] at hp
    exact hp
  · obtain ⟨j, hj, hi⟩ := Option.map_eq_some_iff.mp h
    cases hi
    have hp := rvc_performs m w (fun _ => hzero) hj
    unfold execute
    rw [isCompressed_of_expand w hj]
    exact hp

end Decoded

/-! ## The end of a step -/

section Ends

variable {δ : Type} [SlaveIOI δ] {s t u : Machine (AddrBus δ)} {w : BitVec 32}
  {len : BitVec 64} {space : AddressSpace} {h h' : Hart}

/-- Behind an instruction: the registers and the PC that it leaves, and the counters. -/
def retiredWith (c : RV64Core) (x : Reg → BitVec 64) (pc : BitVec 64) : RV64Core :=
  { c with
    gpr := x
    currentProgramCounter := pc
    minstret := c.minstret + 1
    csrMCycleNum := c.csrMCycleNum + 1
    csrIntPending := c.sampled.csrIntPending
    currentPrivMode := c.nextPrivMode
    needTrap := false }

/-- No interrupt is taken, whatever is pending. -/
structure Undisturbed (c : RV64Core) : Prop where
  interrupts : ∀ pending,
    { c with csrIntPending := pending, currentPrivMode := c.nextPrivMode }.intToRaise = none
  status : statusBlankZero c.status = true

omit [SlaveIOI δ] in
theorem Undisturbed.congr {c d : RV64Core} (hu : Undisturbed c) (hstatus : d.status = c.status)
    (hmode : d.nextPrivMode = c.nextPrivMode) (henable : d.csrIntEnable = c.csrIntEnable)
    (hdelegation : d.csrMIntDelegation = c.csrMIntDelegation) : Undisturbed d := by
  refine ⟨fun pending => ?_, hstatus ▸ hu.status⟩
  have hnone := hu.interrupts pending
  simp only [RV64Core.intToRaise, RV64Core.intBits, hstatus, hmode, henable,
    hdelegation] at hnone ⊢
  exact hnone

omit [SlaveIOI δ] in
/-- What an instruction leaves of the core is undisturbed as well. -/
theorem Undisturbed.retired {c : RV64Core} (hu : Undisturbed c) (x : Reg → BitVec 64)
    (pc : BitVec 64) : Undisturbed (retiredWith c x pc) :=
  ⟨hu.interrupts, hu.status⟩

/-- A core that shows the same of its mode, of `satp` and of the status. -/
structure SameView (c d : RV64Core) : Prop where
  status : d.status = c.status
  satp : d.satp = c.satp
  nextPrivMode : d.nextPrivMode = c.nextPrivMode

/-- `P` is what a program sees as its memory. The access paths serve the addresses of `space`
from it, and neither the rest of the core nor the devices matter. -/
structure Serves (space : AddressSpace) (P : Machine (AddrBus δ) → Memory 64 → Prop) : Prop where
  congr : ∀ s m c tr, P s m → SameView s.core c → P { s with core := c, trace := tr } m
  bus : ∀ s m b, P s m → region b = region s.bus → P { s with bus := b } m
  fetch : ∀ s m pc, P s m → s.core.currentPrivMode = s.core.nextPrivMode → pc % 2 = 0 →
    space.fetches pc = true →
    ∃ t, vaddrInstFetchMMUAPI pc 4 s = .ok (.accessOk, word m pc 4) t ∧ P t m
  load : ∀ s m addr (width : Width), P s m → s.core.currentPrivMode = s.core.nextPrivMode →
    space.loads addr width.bytes = true → addr.toNat % width.bytes = 0 →
    ∃ t, memRead addr width.bytes s = .ok (some (word m addr width.bytes)) t ∧ P t m ∧
      t.core = s.core ∧ traps t.trace = traps s.trace
  store : ∀ s m addr (width : Width) data, P s m → s.core.currentPrivMode = s.core.nextPrivMode →
    space.stores addr width.bytes = true → addr.toNat % width.bytes = 0 →
    ∃ t, memWrite addr width.bytes data s = .ok () t ∧
      P t (Write.apply ⟨addr, width.bytes, data.setWidth (8 * width.bytes)⟩ m) ∧
      t.core = s.core ∧ traps t.trace = traps s.trace

variable {P : Machine (AddrBus δ) → Memory 64 → Prop}

/-- The machine shows this hart. -/
structure Shows (P : Machine (AddrBus δ) → Memory 64 → Prop) (s : Machine (AddrBus δ))
    (h : Hart) : Prop where
  x : s.core.gpr = h.x
  pc : s.core.currentProgramCounter = h.pc
  mem : P s h.mem

/-- What a step leaves whose code has done what the hart does. -/
theorem step_shows (hserves : Serves space P) {flags : ExecFlags} (hw : fetchedWord s = some w)
    (hrun : execute w (decoding s w) = .ok flags u) (hlegal : flags.isInstrIllegal = false)
    (hcore : (u.core.advancePC { inst := w, isCompressedInst := isCompressed w, flags := flags
      }).retire = retiredWith s.core h'.x h'.pc)
    (hview : SameView s.core u.core) (hu : Undisturbed s.core) (hmem : P u h'.mem)
    (htraps : traps u.trace = traps s.trace) :
    ∃ t, step s = .ok () t ∧ t.core = retiredWith s.core h'.x h'.pc ∧ Shows P t h' ∧
      traps t.trace = traps s.trace := by
  obtain ⟨hfinal, hreturns⟩ := step_end hw hrun hlegal
  rw [hview.status, hu.status] at hreturns
  rw [hcore] at hfinal
  have hsame : SameView u.core (retiredWith s.core h'.x h'.pc) :=
    ⟨hview.status.symm, hview.satp.symm, hview.nextPrivMode.symm⟩
  refine ⟨final step s, eq_final hreturns, ?_, ⟨?_, ?_, ?_⟩, ?_⟩
  all_goals rw [hfinal]
  · rfl
  · rfl
  · exact hserves.congr u h'.mem _ u.trace hmem hsame
  · exact htraps

omit [SlaveIOI δ] in
theorem sameView_setGPR {c d : RV64Core} (hview : SameView c d) (rd : Reg) (value : BitVec 64) :
    SameView c (d.setGPR rd value) := by
  unfold RV64Core.setGPR
  split
  · exact hview
  · exact ⟨hview.status, hview.satp, hview.nextPrivMode⟩

/-- The machine that decodes: its core, and that nothing was raised. -/
theorem decoding_shows (hw : fetchedWord s = some w) :
    (decoding s w).core = s.core.sampled ∧ SameView s.core (decoding s w).core ∧
      traps (decoding s w).trace = traps s.trace := by
  have hcore := (decoding_silent hw).1
  refine ⟨hcore, ?_, ?_⟩
  · rw [hcore]
    exact ⟨rfl, rfl, rfl⟩
  · rw [← traps_log, decoding_log hw, ← traps_log s.trace]
    rfl

/-- A step whose code performs the effect of the hart's instruction. -/
theorem performs_step (hserves : Serves space P) (hw : fetchedWord s = some w)
    (hlen : len = if isCompressed w then 2 else 4) (hs : Shows P s h)
    (hmem : P (decoding s w) h.mem) (hu : Undisturbed s.core) {e : Effect}
    (hp : Performs len (execute w) (decoding s w) e) (hperf : h.perform space len e = some h') :
    ∃ t, step s = .ok () t ∧ t.core = retiredWith s.core h'.x h'.pc ∧ Shows P t h' ∧
      traps t.trace = traps s.trace := by
  obtain ⟨hcore, hview, htraps⟩ := decoding_shows hw
  have hmode : (decoding s w).core.currentPrivMode = (decoding s w).core.nextPrivMode := by
    rw [hcore]
    rfl
  have hnext : h.pc + len = s.core.currentProgramCounter + (if isCompressed w then 2 else 4) := by
    rw [hlen, hs.pc]
  cases e with
  | write rd value =>
    cases hperf
    refine step_shows hserves hw hp rfl ?_ (sameView_setGPR hview rd value) hu ?_ htraps
    · rw [hcore, hnext, ← hs.x]
      exact retiredAt_fall s.core rd value rfl
    · exact hserves.congr _ _ _ _ hmem (sameView_setGPR ⟨rfl, rfl, rfl⟩ rd value)
  | jump rd link target =>
    cases hperf
    rcases hp with hp | ⟨hp, rfl, htarget⟩
    · have hset := sameView_setGPR hview rd link
      refine step_shows hserves hw hp rfl ?_ ⟨hset.status, hset.satp, hset.nextPrivMode⟩ hu ?_
        htraps
      · rw [hcore, ← hs.x]
        exact retiredAt_jump s.core rd link target rfl
      · have hown := sameView_setGPR (c := (decoding s w).core) ⟨rfl, rfl, rfl⟩ rd link
        exact hserves.congr _ _ _ _ hmem ⟨hown.status, hown.satp, hown.nextPrivMode⟩
    · refine step_shows hserves hw hp rfl ?_ hview hu hmem htraps
      rw [htarget, hcore, hlen, ← hs.x]
      exact retiredAt_fall s.core 0 link rfl
  | load rd addr width unsigned =>
    obtain ⟨hacc, rfl⟩ := Hart.perform_load hperf
    obtain ⟨v, hread, hv, hvcore, hvtraps⟩ := hserves.load _ _ addr width hmem hmode hacc.1 hacc.2
    have hrun : execute w (decoding s w) = loadGPR addr width.bytes (extend unsigned) rd _ := hp
    unfold loadGPR at hrun
    rw [bind_of_ok hread] at hrun
    refine step_shows hserves hw hrun rfl ?_ ?_ hu ?_ (hvtraps.trans htraps)
    · dsimp only
      rw [hvcore, hcore, hnext, ← hs.x]
      exact retiredAt_fall s.core rd _ rfl
    · dsimp only
      rw [hvcore]
      exact sameView_setGPR hview rd _
    · exact hserves.congr _ _ _ _ hv (sameView_setGPR ⟨rfl, rfl, rfl⟩ rd _)
  | store addr width data =>
    obtain ⟨hacc, rfl⟩ := Hart.perform_store hperf
    obtain ⟨v, hwrite, hv, hvcore, hvtraps⟩ :=
      hserves.store _ _ addr width data hmem hmode hacc.1 hacc.2
    have hrun : execute w (decoding s w) =
      (do memWrite addr width.bytes data; return retired : Emu _ ExecFlags) _ := hp
    rw [bind_of_ok hwrite] at hrun
    refine step_shows hserves hw hrun rfl ?_ ?_ hu hv (hvtraps.trans htraps)
    · rw [hvcore, hcore, hnext, ← hs.x]
      refine (retiredAt_fall s.core 0 0 rfl).trans ?_
      exact congrArg (retiredWith s.core · _) (setReg_zero s.core.gpr 0)
    · rw [hvcore]
      exact hview
  | breakpoint => cases hperf

/-- The word that a step fetches, and the memory that the program sees when it is decoded. -/
theorem fetchedWord_shows (hserves : Serves space P) (hs : Shows P s h) (hu : Undisturbed s.core)
    (heven : h.pc % 2 = 0) (ha : space.fetches h.pc = true) :
    fetchedWord s = some (word h.mem h.pc 4) ∧ P (decoding s (word h.mem h.pc 4)) h.mem := by
  have hint : s.core.sampled.intToRaise = none := hu.interrupts s.core.sampled.csrIntPending
  have hmem : P { s with core := s.core.sampled } h.mem :=
    hserves.congr s h.mem s.core.sampled s.trace hs.mem ⟨rfl, rfl, rfl⟩
  obtain ⟨t, hfetch, ht⟩ := hserves.fetch _ _ h.pc hmem rfl heven ha
  have hfetch : fetch s = .ok (.accessOk, word h.mem h.pc 4) t := by
    unfold fetch
    rw [hs.pc]
    exact hfetch
  constructor
  · unfold fetchedWord
    rw [hint, hfetch]
  · unfold decoding
    rw [hfetch]
    exact hserves.congr t h.mem t.core _ ht ⟨rfl, rfl, rfl⟩

end Ends

/-! ## Steps and runs -/

section Runs

variable {δ : Type} [SlaveIOI δ] {s t : Machine (AddrBus δ)} {space : AddressSpace} {h h' : Hart}
  {P : Machine (AddrBus δ) → Memory 64 → Prop}

/-- The hart is not about to execute a JALR that the code refuses. -/
def Faithful (h : Hart) : Prop := EvenJump (word h.mem h.pc 4) h.x

instance (h : Hart) : Decidable (Faithful h) := inferInstanceAs (Decidable (EvenJump _ _))

omit [SlaveIOI δ] in
/-- The harts of a short run are looked at one by one. -/
theorem faithful_of_all {n : Nat} (hall : (List.range n).all (fun k =>
    (Hart.run space k h).all fun h => decide (Faithful h)) = true) :
    ∀ k hk, k < n → Hart.run space k h = some hk → Faithful hk := by
  intro k hk hlt hr
  have hfaithful := List.all_eq_true.mp hall k (List.mem_range.mpr hlt)
  rw [hr] at hfaithful
  exact of_decide_eq_true hfaithful

/-- A step of the hart is one of the core, which raises no exception. -/
theorem hart_step (hserves : Serves space P) (hs : Shows P s h) (hu : Undisturbed s.core)
    (hzero : h.x 0 = 0) (hjump : Faithful h) (hstep : h.step space = some h') :
    ∃ t, step s = .ok () t ∧ t.core = retiredWith s.core h'.x h'.pc ∧ Shows P t h' ∧
      traps t.trace = traps s.trace := by
  obtain ⟨len, i, hfetch, hperf⟩ := Hart.step_some hstep
  obtain ⟨⟨heven, ha⟩, hdecode⟩ := Option.ite_none_right_eq_some.mp hfetch
  obtain ⟨hw, hmem⟩ := fetchedWord_shows hserves hs hu heven ha
  have hcore := (decoding_silent hw).1
  have hx : (decoding s (word h.mem h.pc 4)).core.gpr = h.x := by
    rw [hcore]
    exact hs.x
  have hpc : (decoding s (word h.mem h.pc 4)).core.currentProgramCounter = h.pc := by
    rw [hcore]
    exact hs.pc
  have hp := decoded_performs (m := decoding s (word h.mem h.pc 4)) hdecode
    (by rw [hpc]; exact heven) (by rw [hx]; exact hjump) (by rw [hx]; exact hzero)
  rw [hx, hpc] at hp
  exact performs_step hserves hw (decoded_length hdecode) hs hmem hu hp hperf

/-- A run of `n` steps. Between two of them the interrupt inputs and the devices may change, main
memory does not. -/
inductive Runs (s : Machine (AddrBus δ)) : Nat → Machine (AddrBus δ) → Prop
  | start : Runs s 0 s
  | environment {n : Nat} {t : Machine (AddrBus δ)} (hrun : Runs s n t) (intStatus : IntStatus)
      (bus : AddrBus δ) (kept : region bus = region t.bus) :
      Runs s n { t with core := { t.core with intStatus := intStatus }, bus := bus }
  | step {n : Nat} {t u : Machine (AddrBus δ)} (hrun : Runs s n t)
      (hstep : step { t with trace := [] } = .ok () u) : Runs s (n + 1) u

/-- Steps that return make up runs. -/
theorem exists_run {n : Nat} (h : ∀ k t, Runs s k t → k < n →
    ∃ u, step { t with trace := [] } = .ok () u) : ∃ t, Runs s n t := by
  have hall : ∀ k, k ≤ n → ∃ t, Runs s k t := by
    intro k
    induction k with
    | zero => exact fun _ => ⟨s, .start⟩
    | succ k ih =>
      intro hk
      obtain ⟨t, ht⟩ := ih (Nat.le_of_succ_le hk)
      obtain ⟨u, hu⟩ := h k t ht hk
      exact ⟨u, .step ht hu⟩
  exact hall n (Nat.le_refl n)

theorem hart_stepped (hserves : Serves space P) (hs : Shows P s h) (hu : Undisturbed s.core)
    (hzero : h.x 0 = 0) (hjump : Faithful h) (hstep : h.step space = some h') :
    ∃ t, step { s with trace := [] } = .ok () t ∧ Shows P t h' ∧ Undisturbed t.core ∧
      traps t.trace = [] := by
  have hshows : Shows P { s with trace := [] } h :=
    ⟨hs.x, hs.pc, hserves.congr s h.mem s.core [] hs.mem ⟨rfl, rfl, rfl⟩⟩
  obtain ⟨t, hrun, hcore, ht, htraps⟩ := hart_step hserves hshows hu hzero hjump hstep
  refine ⟨t, hrun, ht, ?_, htraps⟩
  rw [hcore]
  exact hu.retired _ _

/-- A run of the core is behind `k` steps where the hart is. -/
theorem runs_shows (hserves : Serves space P) {n k : Nat} (hs : Shows P s h)
    (hu : Undisturbed s.core) (hzero : h.x 0 = 0) (hlong : Hart.run space n h = some h')
    (hfaithful : ∀ k hk, k < n → Hart.run space k h = some hk → Faithful hk) (hrun : Runs s k t)
    (hk : k ≤ n) : ∃ hk, Hart.run space k h = some hk ∧ Shows P t hk ∧ Undisturbed t.core := by
  induction hrun with
  | start => exact ⟨h, rfl, hs, hu⟩
  | @environment _ t _ intStatus bus kept ih =>
    obtain ⟨hk, hr, ht, hut⟩ := ih hk
    refine ⟨hk, hr, ⟨ht.x, ht.pc, ?_⟩, ⟨hut.interrupts, hut.status⟩⟩
    have hbus := hserves.bus t hk.mem bus ht.mem kept
    exact hserves.congr _ _ { t.core with intStatus := intStatus } t.trace hbus ⟨rfl, rfl, rfl⟩
  | step _ hstep ih =>
    obtain ⟨h₁, hr, ht, hut⟩ := ih (Nat.le_of_succ_le hk)
    obtain ⟨h₂, hs₂, hnext⟩ := steps_next hlong hk hr
    obtain ⟨u, hu, hshows, hundisturbed, -⟩ :=
      hart_stepped hserves ht hut (Hart.run_zero hr hzero) (hfaithful _ _ hk hr) hs₂
    rw [hstep] at hu
    cases hu
    exact ⟨h₂, hnext, hshows, hundisturbed⟩

/-- While the hart has a step the next one of the core returns and raises no exception. -/
theorem runs_steps (hserves : Serves space P) {n k : Nat} (hs : Shows P s h)
    (hu : Undisturbed s.core) (hzero : h.x 0 = 0) (hlong : Hart.run space n h = some h')
    (hfaithful : ∀ k hk, k < n → Hart.run space k h = some hk → Faithful hk) (hrun : Runs s k t)
    (hk : k < n) : ∃ u, step { t with trace := [] } = .ok () u ∧ traps u.trace = [] := by
  obtain ⟨h₁, hr, ht, hut⟩ :=
    runs_shows hserves hs hu hzero hlong hfaithful hrun (Nat.le_of_lt hk)
  obtain ⟨h₂, hs₂, -⟩ := steps_next hlong hk hr
  obtain ⟨u, hstep, -, -, htraps⟩ :=
    hart_stepped hserves ht hut (Hart.run_zero hr hzero) (hfaithful _ _ hk hr) hs₂
  exact ⟨u, hstep, htraps⟩

end Runs

/-! ## Programs that are not translated -/

section Bare

variable {δ : Type} [SlaveIOI δ] {s t : Machine (AddrBus δ)} {b c : AddrBus δ} {r : MainMemory}
  {m : Memory 64} {a : Addr} {n : Nat} {h h' : Hart}

/-- No address is translated. -/
structure Bare (c : RV64Core) : Prop where
  fetches : c.nextPrivMode = .mMode ∨ Satp.mode c.satp = 0
  data : { c with currentPrivMode := c.nextPrivMode }.dataBare = true

omit [SlaveIOI δ] in
theorem Bare.congr {c d : RV64Core} (hc : Bare c) (hview : SameView c d) : Bare d := by
  constructor
  · rw [hview.nextPrivMode, hview.satp]
    exact hc.fetches
  · have hbare := hc.data
    simp only [RV64Core.dataBare, hview.status, hview.satp, hview.nextPrivMode] at hbare ⊢
    exact hbare

omit [SlaveIOI δ] in
/-- In M mode with interrupts off and no mode lent. -/
theorem undisturbed_machine {c : RV64Core} (hmode : c.nextPrivMode = .mMode)
    (hmie : c.status.getLsbD MStatus.mie = false) (hmprv : c.status.getLsbD MStatus.mprv = false)
    (hblank : statusBlankZero c.status = true) : Undisturbed c ∧ Bare c := by
  refine ⟨⟨fun pending => ?_, hblank⟩, .inl hmode, ?_⟩
  · simp [RV64Core.intToRaise, hmode, hmie]
  · simp [RV64Core.dataBare, hmode, hmprv]

omit [SlaveIOI δ] in
theorem undisturbed_reset (c : RV64Core) :
    Undisturbed (RV64Core.reset c) ∧ Bare (RV64Core.reset c) := by
  have hstatus : (RV64Core.reset c).status =
      setField (setField 0 MStatus.sxl (2#2)) MStatus.uxl (2#2) := rfl
  refine undisturbed_machine rfl ?_ ?_ ?_
  all_goals
    rw [hstatus]
    decide +kernel

/-- Main memory with these bytes. -/
structure Holds (r : MainMemory) (b : AddrBus δ) (m : Memory 64) : Prop where
  mem : contents b = m
  attached : b.mainMem.isSome = true
  first : b.memBeginAddr = r.first
  last : b.memEndAddr = r.last

omit [SlaveIOI δ] in
theorem Holds.contains (hb : Holds r b m) (ha : r.Has a n) : Contains b a n :=
  ⟨hb.attached, hb.first ▸ ha.1, hb.last ▸ ha.2⟩

omit [SlaveIOI δ] in
theorem Holds.congr (hb : Holds r b m) (hregion : region c = region b) : Holds r c m := by
  have hall := region_parts hregion
  refine ⟨(congrArg contentsOf hregion).trans hb.mem, ?_, hall.2.1.trans hb.first,
    hall.2.2.trans hb.last⟩
  rw [hall.1]
  exact hb.attached

theorem Holds.store (hb : Holds r b m) (ha : r.Has a n) (x : BitVec (8 * n)) :
    Holds r (b.store a n x).2 (Write.apply ⟨a, n, x⟩ m) := by
  have hinside := hb.contains ha
  have hregion := (store_region hinside x).2
  have hmain : (b.store a n x).2.mainMem = _ := congrArg Prod.fst hregion
  have hbegin : (b.store a n x).2.memBeginAddr = _ := congrArg (·.2.1) hregion
  have hend : (b.store a n x).2.memEndAddr = _ := congrArg (·.2.2) hregion
  refine ⟨?_, ?_, hbegin.trans hb.first, hend.trans hb.last⟩
  · rw [(store_contained hinside x).2, hb.mem]
  · rw [hmain]
    rfl

/-- A program sees main memory itself. -/
structure BareMemory (r : MainMemory) (s : Machine (AddrBus δ)) (m : Memory 64) : Prop where
  holds : Holds r s.bus m
  bare : Bare s.core

/-- A part of a fetch without translation. -/
theorem part_contained (hbare : t.core.currentPrivMode = .mMode ∨ Satp.mode t.core.satp = 0)
    (heven : a % 2 = 0) (h : Contains t.bus a n) : instFetchPart a n t =
      .ok (.accessOk, word (contents t.bus) a n) { t with trace := .load a n :: t.trace } := by
  have hload : SlaveIOI.load t.bus a n = ((.success, word (contents t.bus) a n), t.bus) :=
    load_contained h
  unfold instFetchPart
  rw [assert_bind heven, bind_of_ok (getCore_run t), if_pos hbare, DataPaths.physRead_run, hload]
  rfl

/-- A whole fetch, in one part or in two. -/
theorem fetch_contained (hbare : t.core.currentPrivMode = .mMode ∨ Satp.mode t.core.satp = 0)
    (heven : a % 2 = 0) (hb : Holds r t.bus m) (ha : r.Has a 4) :
    ∃ tr, vaddrInstFetchMMUAPI a 4 t = .ok (.accessOk, word m a 4) { t with trace := tr } := by
  have hmem := hb.mem
  subst hmem
  rcases quarter_cases heven with hquarter | hquarter
  · rw [fetch_at_word heven hquarter]
    exact ⟨_, part_contained hbare heven (hb.contains ha)⟩
  · have hlast := r.last.isLt
    have hfits := ha.2
    have hnext : (a + 2).toNat = a.toNat + 2 := by
      have htwo : (2 : BitVec 64).toNat = 2 := rfl
      rw [BitVec.toNat_add, htwo]
      omega
    have hlow : r.Has a 2 := ⟨ha.1, by omega⟩
    have hhigh : r.Has (a + 2) 2 := by
      unfold MainMemory.Has
      rw [hnext]
      exact ⟨Nat.le_trans ha.1 (Nat.le_add_right _ _), hfits⟩
    have hplace : place t a = some (t, a) := by
      unfold place
      rw [if_pos hbare]
    have hload : SlaveIOI.load t.bus a 2 = ((.success, word (contents t.bus) a 2), t.bus) :=
      load_contained (hb.contains hlow)
    have hrest : loaded t a 2 = { t with trace := .load a 2 :: t.trace } := by
      unfold loaded
      rw [hload]
    have hpart := part_contained (t := loaded t a 2) (n := 2) (a := a + 2) hbare
      (even_next heven) (by rw [hrest]; exact hb.contains hhigh)
    rw [fetch_between heven hquarter hplace (congrArg Prod.fst hload), hpart, hrest, word_halves]
    exact ⟨_, rfl⟩

theorem bare_serves (r : MainMemory) :
    Serves r.space (BareMemory r : Machine (AddrBus δ) → Memory 64 → Prop) where
  congr s m c tr hp hview := ⟨hp.holds, hp.bare.congr hview⟩
  bus s m b hp hregion := ⟨hp.holds.congr hregion, hp.bare⟩
  fetch s m pc hp hmode heven ha := by
    have hbare : s.core.currentPrivMode = .mMode ∨ Satp.mode s.core.satp = 0 := by
      rw [hmode]
      exact hp.bare.fetches
    obtain ⟨tr, hfetch⟩ := fetch_contained hbare heven hp.holds (of_decide_eq_true ha)
    exact ⟨_, hfetch, hp.holds, hp.bare⟩
  load s m addr width hp hmode ha halign := by
    have hbare : s.core.dataBare = true := by
      have hdata := hp.bare.data
      rw [← hmode] at hdata
      exact hdata
    have hread := memRead_aligned hbare (hp.holds.contains (of_decide_eq_true ha))
      ((aligned_iff addr width).mpr halign)
    rw [hp.holds.mem] at hread
    exact ⟨_, hread, ⟨hp.holds, hp.bare⟩, rfl, rfl⟩
  store s m addr width data hp hmode ha halign := by
    have hbare : s.core.dataBare = true := by
      have hdata := hp.bare.data
      rw [← hmode] at hdata
      exact hdata
    have hwrite := memWrite_aligned hbare (hp.holds.contains (of_decide_eq_true ha))
      ((aligned_iff addr width).mpr halign) data
    exact ⟨_, hwrite, ⟨hp.holds.store (of_decide_eq_true ha) _, hp.bare⟩, rfl, rfl⟩

end Bare

/-- `auipc x10, 0`, `c.li x5, 3`, then `c.add x6, x5`, `c.addi x5, -1` and `bne x5, x0, -4` three
times, and `sd x6, 0x100(x10)`. -/
def sumProgram : BitVec 144 :=
  (BaseInst.mem (.store .double 10 6 0x100)).encode ++ (BaseInst.branch .ne 5 0 (-2)).encode ++
    0x12fd#16 ++ 0x9316#16 ++ 0x428d#16 ++ (BaseInst.comp (.auipc 10 0)).encode

def sumMachine : Machine (AddrBus Empty) :=
  Machine.start (RV64Core.reset { (default : RV64Core) with currentProgramCounter := 0x80000000 })
    (Translation.memoryBus fun a => sumProgram.extractLsb' (8 * a) 8)

def sumHart : Hart where
  x := fun _ => 0
  pc := 0x80000000
  mem := contents sumMachine.bus

def sumMemory : MainMemory := ⟨0x80000000, 0x80010000⟩

end NextEmu.Simple.HartRuns
