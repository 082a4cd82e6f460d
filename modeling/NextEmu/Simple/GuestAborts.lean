import NextEmu.Simple.EvenPC
import NextEmu.Simple.Interrupts
import NextEmu.Simple.TrapAsserts
import NextEmu.Simple.TrapVectors

/-!
# Guest programs that abort the emulator

`csrWrite` replaces a bad mode of `stvec` or `satp` and asserts that of `mtvec`; it keeps an MPP
that names no mode and an odd `mepc` or `sepc`. `raiseTrap` asserts that a fetch does not fault at
the handler of such faults. A step is safe when it runs into none of these.
-/

namespace NextEmu.Simple.GuestAborts

open NextEmu.Lib.AbortState NextEmu.Lib.BitField NextEmu.Sdk
open Conformance Delegation EvenPC Interrupts Legality Outcomes PrivModes TrapAsserts TrapVectors

/-- The handler of a fetch that faults. -/
def pageFaultHandler (c : RV64Core) : BitVec 64 :=
  let tvec :=
    if c.delegated (exception Exec.instrPgfault) then c.csrSTrapVecBaseAddr
    else c.csrMTrapVecBaseAddr
  (tvec &&& ~~~ 3) + (if TrapVector.mode tvec = 1 then 48 else 0)

variable {β : Type} [SlaveAtomicIOI β]

/-- The next step faults in the fetch of that handler. -/
def VectorFaults (s : Machine β) : Prop :=
  s.core.sampled.intToRaise = none ∧ (∃ data t, fetch s = .ok (.pageFault, data) t) ∧
    s.core.currentProgramCounter = pageFaultHandler s.core.sampled

/-- The step writes no illegal mode, mode field or return address, and does not fault there. -/
structure Spared (s : Machine β) : Prop where
  mtvec : ¬ Reserved (stepWrites 0x305 s)
  mpp : mppSpared s = true
  epc : WritesEven s
  fetch : ¬ VectorFaults s

/-- The step fails no assertion of `csrWrite` and `raiseTrap`, and leaves legal values in the
registers and in the fields that it writes. -/
structure Safe (s : Machine β) : Prop where
  asserts : ∀ a t, step s = .error a t → a ∉ trapAsserts
  registers : ∀ t, step s = .ok () t → CSRLegal t.core
  mpp : ∀ data t, stepWrites 0x300 s = some data → step s = .ok () t →
    (mppMode t.core.status).Implemented
  epc : ∀ (r : Epc) data t, stepWrites r.number s = some data → step s = .ok () t →
    r.reg t.core % 2 = 0

section Steps

variable {s : Machine β}

/-- The bits that an interrupt register may have are those of interrupts. -/
theorem highest_within {bits : BitVec 64} (h : Within bits mModeIntMask) (hne : bits ≠ 0) :
    ∃ i, highest bits = some i := by
  have hcodes : ∀ n, n < 64 → mModeIntMask.getLsbD n = true →
      n = 1 ∨ n = 3 ∨ n = 5 ∨ n = 7 ∨ n = 9 ∨ n = 11 := by decide
  cases hi : highest bits with
  | some i => exact ⟨i, rfl⟩
  | none =>
    have hclear := highest_none_iff.mp hi
    refine absurd (BitVec.eq_of_getLsbD_eq fun n hn => ?_) hne
    show bits.getLsbD n = (0#64).getLsbD n
    rw [BitVec.getLsbD_zero]
    cases hbit : bits.getLsbD n with
    | false => rfl
    | true =>
      rw [← hbit]
      rcases hcodes n hn (within_iff.mp h n hbit) with rfl | rfl | rfl | rfl | rfl | rfl
      · exact hclear .sSw
      · exact hclear .mSw
      · exact hclear .sTimer
      · exact hclear .mTimer
      · exact hclear .sExt
      · exact hclear .mExt

/-- The bits that `preExec` raises an interrupt for have one. -/
theorem raised_known {c : RV64Core} {bits : BitVec 64} (h : Within c.csrIntEnable mModeIntMask)
    (hraise : c.intToRaise = some bits) : ∃ i, highest bits = some i := by
  have hpending : Within c.intBits mModeIntMask := by
    unfold RV64Core.intBits
    rw [BitVec.and_comm]
    exact h.and _
  unfold RV64Core.intToRaise at hraise
  dsimp only at hraise
  split at hraise
  · cases hraise
  · rename_i hsome
    have hall : ∃ i, highest c.intBits = some i := by
      rw [bitsToIntType_eq] at hsome
      exact Option.ne_none_iff_exists'.mp hsome
    split at hraise
    · split at hraise
      · rename_i hen
        cases hraise
        rw [Bool.and_eq_true, bne_iff_ne] at hen
        exact highest_within (hpending.and _) hen.2
      · cases hraise
    · -- the other branches take all that is pending
      have hbits : bits = c.intBits := by
        repeat' split at hraise
        all_goals
          first
          | exact (Option.some.inj hraise).symm
          | cases hraise
      rw [hbits]
      exact hall

omit [SlaveAtomicIOI β] in
/-- The end of a step traps an illegal instruction, which has not trapped. -/
theorem endStep_ends {l : StepLocals} {u : Machine β}
    (h : l.flags.isInstrIllegal = true → u.core.needTrap = false) :
    wp (endStep l) (fun _ _ => True) (fun e _ => e ∉ trapAsserts) u := by
  have hend : Mild (β := β) (do
      modifyCore (·.advancePC l)
      modifyCore (·.retire)
      let c ← getCore
      assertThat (statusBlankZero c.status = true) .statusBlank) := by
    intro v
    simp only [wp_bind, wp_modifyCore, wp_getCore, wp_assertThat]
    exact ⟨fun _ => trivial, fun _ => by decide⟩
  unfold endStep
  dsimp only
  rw [wp_ite]
  constructor
  · intro hill
    exact tame_then (tame_raiseTrap (by decide) _) (fun _ => hend) u (h hill)
  · exact fun _ => hend u

/-- A step that fetches a word stops with its instruction. -/
theorem fetched_ends {inst : BitVec 32} (hw : fetchedWord s = some inst) :
    wp step (fun _ _ => True)
      (fun e _ => e ∈ trapAsserts → e = .tvecMode ∧ Reserved (stepWrites 0x305 s)) s := by
  have hcore := (decoding_silent hw).1
  have hclear : (decoding s inst).core.needTrap = false := hcore ▸ rfl
  have hwrites : stepWrites 0x305 s = dataWritten 0x305 (decoding s inst).core inst := by
    unfold stepWrites
    rw [hw, hcore]
    rfl
  rw [hwrites]
  refine wp_congr (step_eq hw) ?_
  rw [wp_bind]
  refine wp_mono (wp_and (execute_outcome inst _) (execute_ends inst hclear))
    (fun flags u ho => ?_) (fun _ _ he => he.2)
  refine wp_mono (endStep_ends fun hill => ?_) (fun _ _ _ => trivial)
    (fun _ _ he hmem => absurd hmem he)
  have hill : flags.isInstrIllegal = true := hill
  cases ho.1 with
  | trapped _ _ _ legal => exact absurd (legal.symm.trans hill) Bool.false_ne_true
  | illegal silent _ => exact silent.core ▸ hclear
  | done _ _ legal => exact absurd (legal.symm.trans hill) Bool.false_ne_true

/-- The handler that `raiseTrap` computes for such a fault. -/
theorem trapped_pageFault (c : RV64Core) (tval : BitVec 64) :
    (c.trapped (exception Exec.instrPgfault) tval).trapProgramCounter = pageFaultHandler c := by
  have hentry : ((exception Exec.instrPgfault).val.setWidth 63).setWidth 64 * 4 = 48#64 := by
    decide
  have hsame : ({ c with needTrap := true } : RV64Core).delegated (exception Exec.instrPgfault) =
      c.delegated (exception Exec.instrPgfault) := rfl
  unfold RV64Core.trapped pageFaultHandler
  dsimp only
  rw [hsame]
  cases c.delegated (exception Exec.instrPgfault) with
  | true =>
    simp only [if_true, RV64Core.trapToS, trapPC, base_eq, hentry]
    rfl
  | false =>
    simp only [Bool.false_eq_true, if_false, RV64Core.trapToM, trapPC, base_eq, hentry]
    rfl

omit [SlaveAtomicIOI β] in
/-- The trap of a fetch that faulted. -/
theorem raiseTrap_pageFault {u : Machine β} (hn : u.core.needTrap = false) (tval : BitVec 64) :
    wp (raiseTrap (exception Exec.instrPgfault) tval)
      (fun _ t => t.core = u.core.trapped (exception Exec.instrPgfault) tval ∧
        tval ≠ pageFaultHandler u.core)
      (fun e _ => e = .trapVectorFetch ∧ tval = pageFaultHandler u.core) u := by
  unfold raiseTrap
  simp only [wp_bind, wp_emit, wp_getCore, wp_assertThat, wp_modifyCore, trapped_pageFault]
  refine ⟨fun _ => ⟨fun _ => ⟨fun hne => ⟨trivial, fun heq => hne ⟨trivial, heq⟩⟩, fun heq => ?_⟩,
    fun hok => absurd (by decide) hok⟩, fun hset => absurd hn hset⟩
  exact ⟨trivial, (Decidable.not_not.mp heq).2⟩

/-- A step that takes an interrupt is at its end. -/
theorem step_interrupted {bits : BitVec 64} {i : IntType}
    (hint : s.core.sampled.intToRaise = some bits) (hi : highest bits = some i) :
    step s = endStep {} { s with
      core := s.core.sampled.trapped (intCause (some i)) 0
      trace := .trap (intCause (some i)) 0 :: s.trace } := by
  unfold step
  rw [bind_of_ok (preExec_raises hint hi), bind_of_ok (getCore_run _),
    if_pos (trapped_needTrap _ _ _)]

/-- One that takes none goes on with the fetch. -/
theorem step_uninterrupted (hint : s.core.sampled.intToRaise = none) :
    step s = (do
      let l ← fetchDecodeExec
      endStep l) { s with core := s.core.sampled } := by
  have hclear : ¬ s.core.sampled.needTrap = true := Bool.false_ne_true
  unfold step
  rw [bind_of_ok (preExec_quiet hint), bind_of_ok (getCore_run _), if_neg hclear]

/-- How a step that fetches no word ends: at the handler of its fault, or without a failure of the
assertions. -/
abbrev Unfetched (s : Machine β) {ρ : Type} (x : Emu β ρ) (u : Machine β) : Prop :=
  wp x (fun _ _ => ¬ VectorFaults s)
    (fun e _ => e = .trapVectorFetch ∧ VectorFaults s ∨ e ∉ trapAsserts ∧ ¬ VectorFaults s) u

/-- The end of a step behind a trap of another kind. -/
theorem unfetched_trap (hnot : ¬ VectorFaults s) {code : BitVec 63} (hpass : Passing code)
    (tval : BitVec 64) {u : Machine β} (hclear : u.core.needTrap = false) :
    Unfetched s (do raiseTrap (exception code) tval; endStep {}) u := by
  have hend : Tame (β := β) (do raiseTrap (exception code) tval; endStep {}) :=
    tame_then (tame_raiseTrap hpass tval) fun _ _ => endStep_ends nofun
  exact wp_mono (hend u hclear) (fun _ _ _ => hnot) (fun _ _ he => .inr ⟨he, hnot⟩)

/-- What a failed fetch leads to. -/
theorem unfetched_feedback {fb : VAddrFeedback} {data : BitVec 32} {t : Machine β}
    (hint : s.core.sampled.intToRaise = none) (hfetch : fetch s = .ok (fb, data) t)
    (hfail : fb ≠ .accessOk) (hcore : t.core = s.core.sampled) :
    Unfetched s (do
      assertThat (fetchException fb ≠ 0) .fetchFeedback
      raiseTrap (exception (fetchException fb)) s.core.currentProgramCounter
      endStep {}) t := by
  have hclear : t.core.needTrap = false := hcore ▸ rfl
  have hother : fb ≠ .pageFault → ¬ VectorFaults s := by
    rintro hne ⟨-, ⟨data', t', hfault⟩, -⟩
    rw [hfetch] at hfault
    cases hfault
    exact hne rfl
  unfold Unfetched
  rw [wp_bind, wp_assertThat]
  cases fb with
  | accessOk => exact absurd rfl hfail
  | accessFault =>
    constructor
    · exact fun _ => unfetched_trap (hother (by decide)) (by decide) _ hclear
    · exact fun hcause => absurd (by decide) hcause
  | misAlign =>
    constructor
    · exact fun hcause => absurd rfl hcause
    · exact fun _ => .inr ⟨by decide, hother (by decide)⟩
  | pageFault =>
    constructor
    · intro _
      have htrap := raiseTrap_pageFault hclear s.core.currentProgramCounter
      rw [hcore] at htrap
      rw [wp_bind]
      refine wp_mono htrap (fun _ u hu => ?_)
        (fun _ _ he => .inl ⟨he.1, hint, ⟨data, t, hfetch⟩, he.2⟩)
      have hnot : ¬ VectorFaults s := fun hv => hu.2 hv.2.2
      exact wp_mono (endStep_ends nofun) (fun _ _ _ => hnot) (fun _ _ he => .inr ⟨he, hnot⟩)
    · exact fun hcause => absurd (by decide) hcause

/-- A step that fetches no word. -/
theorem unfetched_ends (h : CSRLegal s.core) (hw : fetchedWord s = none) :
    Unfetched s step s := by
  cases hint : s.core.sampled.intToRaise with
  | some bits =>
    have hnot : ¬ VectorFaults s := by
      intro hv
      cases hv.1.symm.trans hint
    obtain ⟨i, hi⟩ := raised_known (sampled_legal h).mie hint
    refine wp_congr (step_interrupted hint hi) ?_
    exact wp_mono (endStep_ends fun hillegal => absurd hillegal Bool.false_ne_true)
      (fun _ _ _ => hnot) (fun _ _ he => .inr ⟨he, hnot⟩)
  | none =>
    refine wp_congr (step_uninterrupted hint) ?_
    unfold fetchDecodeExec
    simp only [wp_bind, wp_getCore, wp_ite]
    constructor
    · intro hodd
      have hnot : ¬ VectorFaults s := by
        rintro ⟨-, ⟨_, _, hfetch⟩, -⟩
        exact hodd (fetch_even hfetch)
      have hend := unfetched_trap hnot (by decide : Passing Exec.instrMisalign)
        s.core.currentProgramCounter (u := { s with core := s.core.sampled }) rfl
      unfold Unfetched at hend
      rw [wp_bind] at hend
      exact hend
    intro _
    refine wp_mono (wp_and ((silent_instFetch _ 4).wp _) (wp_and (mild_instFetch _ 4 _)
      (wp_run _ _))) (fun r t ht => ?_) (fun e t he => ?_)
    · obtain ⟨hsilent, -, hrun⟩ := ht
      obtain ⟨fb, data⟩ := r
      have hfetch : fetch s = .ok (fb, data) t := hrun
      have hfail : fb ≠ .accessOk := by
        rintro rfl
        unfold fetchedWord at hw
        rw [hint, hfetch] at hw
        cases hw
      have hend := unfetched_feedback hint hfetch hfail hsilent.core
      unfold Unfetched at hend
      simp only [wp_bind] at hend
      exact ⟨fun _ => hend, fun hok => absurd hfail hok⟩
    · obtain ⟨-, hmild, hrun⟩ := he
      have hfetch : fetch s = .error e t := hrun
      refine .inr ⟨hmild, ?_⟩
      rintro ⟨-, ⟨data', t', hfault⟩, -⟩
      cases hfetch.symm.trans hfault

/-- The assertions that a step fails. -/
theorem step_ends (h : CSRLegal s.core) :
    wp step (fun _ _ => True)
      (fun e _ => e ∈ trapAsserts → Reserved (stepWrites 0x305 s) ∨ VectorFaults s) s := by
  cases hw : fetchedWord s with
  | some inst =>
    exact wp_mono (fetched_ends hw) (fun _ _ _ => trivial) (fun _ _ he hmem => .inl (he hmem).2)
  | none =>
    refine wp_mono (unfetched_ends h hw) (fun _ _ _ => trivial) (fun _ _ he hmem => ?_)
    rcases he with he | he
    · exact .inr he.2
    · exact absurd hmem he.1

theorem vector_stops (h : CSRLegal s.core) (hv : VectorFaults s) :
    ∃ t, step s = .error .trapVectorFetch t := by
  have hw : fetchedWord s = none := by
    obtain ⟨hint, ⟨data, t, hfetch⟩, -⟩ := hv
    unfold fetchedWord
    rw [hint, hfetch]
  have hends := unfetched_ends h hw
  cases hrun : step s with
  | ok r t => exact absurd hv (wp_ok hends hrun)
  | error e t =>
    rcases wp_error hends hrun with he | he
    · exact ⟨t, he.1 ▸ rfl⟩
    · exact absurd hv he.2

omit [SlaveAtomicIOI β] in
/-- A CSR instruction of which the write fails. -/
theorem csrInstr_stops {inst : BitVec 32} {newValue : BitVec 64 → Option (BitVec 64)}
    {v data : BitVec 64} {e : Assertion}
    (hperm : s.core.csrOpPermissionCheck (field inst 20 12) true = true)
    (hread : s.core.csrRead (CSRAddr.ofNumber (field inst 20 12)) = some v)
    (hval : newValue v = some data)
    (hwrite : s.core.csrWrite data (CSRAddr.ofNumber (field inst 20 12)) = .error e) :
    csrInstr inst true newValue s = .error e s := by
  rw [csrInstr_writes hperm hread hval, hwrite]
  exact rfl

theorem mtvec_stops (h : Reserved (stepWrites 0x305 s)) : ∃ t, step s = .error .tvecMode t := by
  obtain ⟨data, hsome, hmode⟩ := h
  obtain ⟨inst, hw, hop, hn, hperm, hdata⟩ := stepWrites_some hsome
  obtain ⟨newValue, v, hread, hval, hexec⟩ := csr_execute hw hop hdata
  have hwrite : s.core.sampled.csrWrite data (CSRAddr.ofNumber (field inst 20 12)) =
      .error .tvecMode := by
    rw [hn]
    exact if_neg (BitVec.not_le.mpr hmode)
  rw [← hn] at hperm
  rw [← (decoding_silent hw).1] at hperm hread hwrite
  refine ⟨decoding s inst, ?_⟩
  rw [step_eq hw,
    bind_of_error (hexec.trans (csrInstr_stops hperm hread hval hwrite))]

/-- A step of which the write succeeds returns. -/
theorem written_returns {n : BitVec 12} {data : BitVec 64} {c' : RV64Core} (h : CSRLegal s.core)
    (hsome : stepWrites n s = some data)
    (hwrite : s.core.sampled.csrWrite data (CSRAddr.ofNumber n) = .ok (some c')) :
    ∃ t, step s = .ok () t := by
  obtain ⟨inst, hw, hop, hn, hperm, hdata⟩ := stepWrites_some hsome
  rw [← hn] at hperm hwrite
  obtain ⟨v, heq⟩ := csr_step_eq hw hop hperm hdata hwrite
  refine ⟨_, eq_final ?_⟩
  rw [returns_congr heq, (endStep_run rfl _).2]
  show statusBlankZero (c'.setGPR (RVInst.rd inst) v).status = true
  rw [setGPR_status]
  exact (csrWrite_legal (sampled_legal h) hwrite).status.blank

theorem Safe.spared (h : CSRLegal s.core) (hsafe : Safe s) : Spared s where
  mtvec := by
    intro hres
    obtain ⟨t, hstop⟩ := mtvec_stops hres
    exact hsafe.asserts _ t hstop (by decide)
  mpp := by
    cases hpre : mppSpared s with
    | true => rfl
    | false =>
      obtain ⟨inst, data, hw, hdata, hmpp⟩ := unspared_mpp hpre
      have hsome : stepWrites 0x300 s = some data := by
        unfold stepWrites
        rw [hw]
        exact hdata
      obtain ⟨t, hstep⟩ := written_returns h hsome rfl
      have himpl := hsafe.mpp data t hsome hstep
      rw [hmpp t hstep] at himpl
      rcases himpl with hm | hm | hm <;> cases hm
  epc := by
    intro r data hsome
    have hwrite : ∃ c', s.core.sampled.csrWrite data (CSRAddr.ofNumber r.number) =
        .ok (some c') := by
      cases r with
      | machine => exact ⟨_, rfl⟩
      | supervisor => exact ⟨_, rfl⟩
    obtain ⟨c', hwrite⟩ := hwrite
    obtain ⟨t, hstep⟩ := written_returns h hsome hwrite
    rw [← step_epc hsome hstep]
    exact hsafe.epc r data t hsome hstep
  fetch := by
    intro hv
    obtain ⟨t, hstop⟩ := vector_stops h hv
    exact hsafe.asserts _ t hstop (by decide)

theorem Spared.safe (h : CSRLegal s.core) (hs : Spared s) : Safe s where
  asserts := by
    intro a t hstop hmem
    rcases wp_error (step_ends h) hstop hmem with hres | hv
    · exact hs.mtvec hres
    · exact hs.fetch hv
  registers := fun t hstep => step_legal h hstep
  mpp := by
    intro data t hsome hstep
    have hwrite : s.core.sampled.csrWrite data (CSRAddr.ofNumber 0x300) =
        .ok (some { s.core.sampled with status := writeMStatus s.core.sampled.status data }) := rfl
    obtain ⟨rd, v, l, hcore⟩ := written_step hsome hwrite hstep
    rw [hcore, retire_status, setGPR_status, mppMode_writeMStatus]
    refine (implemented_iff _).mpr ?_
    obtain ⟨inst, hw, hdata⟩ := Option.bind_eq_some_iff.mp hsome
    have hmst : mstatusWritten s.core.sampled inst = some data := hdata
    have hspared := hs.mpp
    simpa only [mppSpared, hw, hmst, bne_iff_ne] using hspared
  epc := by
    intro r data t hsome hstep
    rw [step_epc hsome hstep]
    exact hs.epc r data hsome

end Steps

/-- In every state of every run, the next step fails none of the assertions and writes legal values
exactly when it writes no illegal one and does not fault at the handler. -/
theorem guest_safe (s : Machine β) (h : Reached (fun _ => True) s) :
    Safe { s with trace := [] } ↔ Spared { s with trace := [] } := by
  have hlegal := reached_legal h
  constructor
  · exact fun hsafe => hsafe.spared hlegal
  · exact fun hs => hs.safe hlegal

/-! ## Programs that abort -/

/-- `li x1, 2` and `csrw mtvec, x1`. -/
def mtvecMachine : Machine (AddrBus Empty) :=
  Machine.start (RV64Core.reset { (default : RV64Core) with currentProgramCounter := 0x80000000 })
    (Translation.memoryBus fun a => (0x3050907300200093#64).extractLsb' (8 * a) 8)

theorem mtvecMachine_initial : mtvecMachine.Initial := ⟨⟨_, rfl⟩, fun _ => rfl, rfl⟩

/-- The second instruction fails the assertion on the mode. -/
theorem guest_aborts :
    ¬ ∀ s : Machine (AddrBus Empty), Reached (fun _ => True) s →
      Safe { s with trace := [] } := by
  intro hall
  have hreached : Reached (fun _ => True) (after mtvecMachine 1) :=
    reached_after (.initial mtvecMachine_initial) 1 (by decide +kernel)
  have hstop : aborted step { after mtvecMachine 1 with trace := [] } = some .tvecMode := by
    decide +kernel
  exact (hall _ hreached).asserts _ _ (eq_aborted hstop) (by decide)

/-- A program that enters U mode at address 0 with tables of zeros. -/
def faultMachine : Machine (AddrBus Empty) :=
  Machine.start (RV64Core.reset { (default : RV64Core) with currentProgramCounter := 0x80000000 })
    -- li x1, 1; slli x1, x1, 63; lui x2, 0x80; addi x2, x2, 1; or x1, x1, x2; csrw satp, x1; mret
    (Translation.memoryBus fun a =>
      (0x30200073180090730020e0b3001101130008013703f0909300100093#224).extractLsb' (8 * a) 8)

/-- The fetch faults at the handler, which is at 0 too. -/
example : aborted step { after faultMachine 7 with trace := [] } = some .trapVectorFetch := by
  decide +kernel

/-- The first one is safe. -/
theorem guest_safe_li : Safe { mtvecMachine with trace := [] } := by
  refine (guest_safe mtvecMachine (.initial mtvecMachine_initial)).mpr ?_
  have hnone : ∀ n ∈ [0x305, 0x341, 0x141], stepWrites n mtvecMachine = none := by
    decide +kernel
  constructor
  · rintro ⟨data, hsome, -⟩
    exact absurd (hsome.symm.trans (hnone 0x305 (by decide))) nofun
  · decide +kernel
  · intro r data hsome
    cases r with
    | machine => exact absurd (hsome.symm.trans (hnone 0x341 (by decide))) nofun
    | supervisor => exact absurd (hsome.symm.trans (hnone 0x141 (by decide))) nofun
  · rintro ⟨-, ⟨data, t, hfetch⟩, -⟩
    have hword : (fetchedWord mtvecMachine).isSome = true := by decide +kernel
    have hnoWord : fetchedWord mtvecMachine = none := by
      unfold fetchedWord
      rw [show fetch mtvecMachine = _ from hfetch]
      cases mtvecMachine.core.sampled.intToRaise <;> rfl
    rw [hnoWord] at hword
    cases hword

end NextEmu.Simple.GuestAborts
