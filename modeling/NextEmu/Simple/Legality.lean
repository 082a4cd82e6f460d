import NextEmu.Simple.Boundary
import NextEmu.Simple.Conformance
import NextEmu.Simple.Runs
import NextEmu.Simple.Translation
import NextEmu.Simple.Traversal

/-!
# Legal control registers

Each CSR stays within the values that the core implements, in every state of a run.
The status word is written through two views of it, by CSR writes, traps and returns;
whatever writes it changes only the fields listed in `statusFields`, so that the
others keep the value that reset gives them. The assertions at the end of `step` are
about five of those.
-/

namespace NextEmu.Simple.Legality

open NextEmu.Lib.AbortState NextEmu.Lib.BitField NextEmu.Lib.RadixWalk NextEmu.Sdk
open Outcomes Translation Traversal

/-- The bits of `mstatus` that something writes. -/
def statusFields : List Nat :=
  [MStatus.sie, MStatus.mie, MStatus.spie, MStatus.mpie, MStatus.spp, MStatus.mpp,
    MStatus.mpp + 1, MStatus.mprv, MStatus.sum, MStatus.mxr, MStatus.tvm, MStatus.tw, MStatus.tsr]

/-- The fields of `mstatus` that the core does not implement, or has one value for. -/
structure StatusLegal (status : BitVec 64) : Prop where
  blank0 : status.getLsbD MStatus.blank0 = false
  blank1 : status.getLsbD MStatus.blank1 = false
  blank2 : status.getLsbD MStatus.blank2 = false
  blank3 : field status MStatus.blank3 9 = 0
  blank4 : field status MStatus.blank4 25 = 0
  ube : status.getLsbD MStatus.ube = false
  vs : field status MStatus.vs 2 = 0
  fs : field status MStatus.fs 2 = 0
  xs : field status MStatus.xs 2 = 0
  sbe : status.getLsbD MStatus.sbe = false
  mbe : status.getLsbD MStatus.mbe = false
  sd : status.getLsbD MStatus.sd = false
  sxl : field status MStatus.sxl 2 = 2
  uxl : field status MStatus.uxl 2 = 2

/-- The values that the registers of a core may have. -/
structure CSRLegal (c : RV64Core) : Prop where
  status : StatusLegal c.status
  medeleg : Within c.csrMExceptionDelegation sModeExcMask
  mideleg : Within c.csrMIntDelegation sModeIntMask
  sie : ∀ v, c.csrRead (some .sie) = some v → Within v sModeIntMask
  mie : Within c.csrIntEnable mModeIntMask
  mip : Within c.csrIntPending mModeIntMask
  mcounteren : Within c.csrMCounterEN counterMask
  scounteren : Within c.csrSCounterEN counterMask
  mtvec : TrapVector.mode c.csrMTrapVecBaseAddr = 0 ∨ TrapVector.mode c.csrMTrapVecBaseAddr = 1
  stvec : TrapVector.mode c.csrSTrapVecBaseAddr = 0 ∨ TrapVector.mode c.csrSTrapVecBaseAddr = 1
  satp : Satp.mode c.satp = 0 ∨ Satp.mode c.satp = 8

/-! ## The status word -/

/-- The two words differ in the written bits only. -/
def Agrees (v v' : BitVec 64) : Prop := ∀ i, i ∉ statusFields → v.getLsbD i = v'.getLsbD i

section Status

variable {v v' v'' : BitVec 64}

theorem Agrees.refl (v : BitVec 64) : Agrees v v := fun _ _ => rfl

theorem Agrees.trans (h : Agrees v v') (h' : Agrees v' v'') : Agrees v v'' :=
  fun i hi => (h i hi).trans (h' i hi)

theorem agrees_setBit (v : BitVec 64) {i : Nat} (hi : i ∈ statusFields) (b : Bool) :
    Agrees (setBit v i b) v := by
  intro j hj
  refine getLsbD_setBit_ne v b fun hji => hj ?_
  rw [hji]
  exact hi

theorem agrees_setMpp (v : BitVec 64) (x : BitVec 2) : Agrees (setField v MStatus.mpp x) v := by
  intro j hj
  rw [getLsbD_setField, if_neg]
  rintro ⟨hlo, hhi⟩
  have hcase : j = MStatus.mpp ∨ j = MStatus.mpp + 1 := by omega
  rcases hcase with rfl | rfl
  · exact hj (by decide)
  · exact hj (by decide)

/-- What the other bits have in common is every field of `StatusLegal`. -/
theorem StatusLegal.of_agrees (h : StatusLegal v') (ha : Agrees v v') : StatusLegal v := by
  have hfield : ∀ lo w, (∀ i, lo ≤ i → i < lo + w → i ∉ statusFields) →
      field v lo w = field v' lo w :=
    fun lo w hout => field_congr fun i hlo hhi => ha i (hout i hlo hhi)
  have hout : ∀ i, i ∉ statusFields ↔ ¬ (i = 1 ∨ i = 3 ∨ i = 5 ∨ i = 7 ∨ i = 8 ∨ i = 11 ∨
      i = 12 ∨ 17 ≤ i ∧ i ≤ 22) := by
    intro i
    simp only [statusFields, MStatus.sie, MStatus.mie, MStatus.spie, MStatus.mpie, MStatus.spp,
      MStatus.mpp, MStatus.mprv, MStatus.sum, MStatus.mxr, MStatus.tvm, MStatus.tw, MStatus.tsr,
      List.mem_cons, List.not_mem_nil, or_false]
    omega
  constructor
  · exact (ha _ (by decide)).trans h.blank0
  · exact (ha _ (by decide)).trans h.blank1
  · exact (ha _ (by decide)).trans h.blank2
  · refine (hfield _ _ fun i hlo hhi => (hout i).mpr ?_).trans h.blank3
    simp only [MStatus.blank3] at hlo hhi
    omega
  · refine (hfield _ _ fun i hlo hhi => (hout i).mpr ?_).trans h.blank4
    simp only [MStatus.blank4] at hlo hhi
    omega
  · exact (ha _ (by decide)).trans h.ube
  · refine (hfield _ _ fun i hlo hhi => (hout i).mpr ?_).trans h.vs
    simp only [MStatus.vs] at hlo hhi
    omega
  · refine (hfield _ _ fun i hlo hhi => (hout i).mpr ?_).trans h.fs
    simp only [MStatus.fs] at hlo hhi
    omega
  · refine (hfield _ _ fun i hlo hhi => (hout i).mpr ?_).trans h.xs
    simp only [MStatus.xs] at hlo hhi
    omega
  · exact (ha _ (by decide)).trans h.sbe
  · exact (ha _ (by decide)).trans h.mbe
  · exact (ha _ (by decide)).trans h.sd
  · refine (hfield _ _ fun i hlo hhi => (hout i).mpr ?_).trans h.sxl
    simp only [MStatus.sxl] at hlo hhi
    omega
  · refine (hfield _ _ fun i hlo hhi => (hout i).mpr ?_).trans h.uxl
    simp only [MStatus.uxl] at hlo hhi
    omega

theorem StatusLegal.blank (h : StatusLegal v) : statusBlankZero v = true := by
  simp [statusBlankZero, h.blank0, h.blank1, h.blank2, h.blank3, h.blank4]

/-! Everything that writes the status agrees with what was there. -/

theorem writeMStatus_agrees (status data : BitVec 64) :
    Agrees (writeMStatus status data) status := by
  have hbit := fun v i hi => agrees_setBit v (i := i) hi
  unfold writeMStatus
  dsimp only
  refine (hbit _ _ (by decide) _).trans ?_
  refine (hbit _ _ (by decide) _).trans ?_
  refine (hbit _ _ (by decide) _).trans ?_
  refine (hbit _ _ (by decide) _).trans ?_
  refine (hbit _ _ (by decide) _).trans ?_
  refine (hbit _ _ (by decide) _).trans ?_
  refine (agrees_setMpp _ _).trans ?_
  refine (hbit _ _ (by decide) _).trans ?_
  refine (hbit _ _ (by decide) _).trans ?_
  refine (hbit _ _ (by decide) _).trans ?_
  refine (hbit _ _ (by decide) _).trans ?_
  exact hbit _ _ (by decide) _

theorem writeSStatus_agrees (status data : BitVec 64) :
    Agrees (writeSStatus status data) status := by
  have hbit := fun v i hi => agrees_setBit v (i := i) hi
  unfold writeSStatus
  dsimp only
  refine (hbit _ _ (by decide) _).trans ?_
  refine (hbit _ _ (by decide) _).trans ?_
  refine (hbit _ _ (by decide) _).trans ?_
  refine (hbit _ _ (by decide) _).trans ?_
  exact hbit _ _ (by decide) _

theorem trapped_agrees (c : RV64Core) (cause : Cause) (tval : BitVec 64) :
    Agrees (c.trapped cause tval).status c.status := by
  unfold RV64Core.trapped
  dsimp only
  split
  · refine (agrees_setBit _ (by decide) _).trans ?_
    refine (agrees_setBit _ (by decide) _).trans ?_
    exact agrees_setBit _ (by decide) _
  · refine (agrees_setMpp _ _).trans ?_
    refine (agrees_setBit _ (by decide) _).trans ?_
    exact agrees_setBit _ (by decide) _

/-- Both returns clear MPRV under a condition. -/
theorem agrees_clearMprv {p : Prop} [Decidable p] (v : BitVec 64) :
    Agrees (if p then setBit v MStatus.mprv false else v) v := by
  split
  · exact agrees_setBit _ (by decide) _
  · exact .refl _

theorem returnedM_agrees (c : RV64Core) : Agrees c.returnedM.status c.status := by
  refine (agrees_setMpp _ _).trans ((agrees_clearMprv _).trans ?_)
  refine (agrees_setBit _ (by decide) _).trans ?_
  exact agrees_setBit _ (by decide) _

theorem returnedS_agrees (c : RV64Core) : Agrees c.returnedS.status c.status := by
  refine (agrees_setBit _ (by decide) _).trans ((agrees_clearMprv _).trans ?_)
  refine (agrees_setBit _ (by decide) _).trans ?_
  exact agrees_setBit _ (by decide) _

end Status

/-! ## The registers -/

section Registers

variable {c c' : RV64Core} {inst : BitVec 32}

/-- The view of S mode stays within its mask, whatever `mie` holds. -/
theorem sieView_within (c : RV64Core) (v : BitVec 64) (hv : c.csrRead (some .sie) = some v) :
    Within v sModeIntMask := by
  cases hv
  exact within_and _ _

theorem sModeIntMask_within : Within sModeIntMask mModeIntMask := by
  unfold Within
  decide

theorem legalTvec_mode (data : BitVec 64) :
    TrapVector.mode (legalTvec data) = 0 ∨ TrapVector.mode (legalTvec data) = 1 := by
  have hle : ∀ m : BitVec 2, ¬ 1 < m → m = 0 ∨ m = 1 := by decide
  unfold legalTvec
  split
  · left
    refine BitVec.eq_of_getLsbD_eq fun i hi => ?_
    have hin : 0 ≤ 0 + i ∧ 0 + i < 0 + 2 := by omega
    simp only [TrapVector.mode, BitVec.getLsbD_extractLsb', getLsbD_setField, hin, and_self,
      if_true, BitVec.getLsbD_zero, Bool.and_false]
    exact BitVec.getLsbD_zero.symm
  · rename_i h
    exact hle _ h

theorem legalSatp_mode (data : BitVec 64) :
    Satp.mode (legalSatp data) = 0 ∨ Satp.mode (legalSatp data) = 8 := by
  unfold legalSatp
  split
  · left
    refine BitVec.eq_of_getLsbD_eq fun i hi => ?_
    have hin : 60 ≤ 60 + i ∧ 60 + i < 60 + 4 := by omega
    simp only [Satp.mode, BitVec.getLsbD_extractLsb', getLsbD_setField, hin, and_self, if_true,
      BitVec.getLsbD_zero, Bool.and_false]
    exact BitVec.getLsbD_zero.symm
  · rename_i h
    exact Decidable.or_iff_not_not_and_not.mpr h

theorem resetStatus_legal :
    StatusLegal (setField (setField 0 MStatus.sxl (2#2)) MStatus.uxl (2#2)) := by
  constructor <;> decide

theorem zeroTvec_mode : TrapVector.mode 0 = 0 := by decide

theorem zeroSatp_mode : Satp.mode 0 = 0 := by decide

theorem reset_legal (c : RV64Core) : CSRLegal c.reset where
  status := resetStatus_legal
  medeleg := BitVec.zero_and
  mideleg := BitVec.zero_and
  sie := sieView_within _
  mie := BitVec.zero_and
  mip := BitVec.zero_and
  mcounteren := BitVec.zero_and
  scounteren := BitVec.zero_and
  mtvec := .inl zeroTvec_mode
  stvec := .inl zeroTvec_mode
  satp := .inl zeroSatp_mode

theorem setGPR_legal (h : CSRLegal c) (rd : BitVec 5) (value : BitVec 64) :
    CSRLegal (c.setGPR rd value) := by
  unfold RV64Core.setGPR
  split
  · exact h
  · exact { h with }

/-- The interrupt controllers drive only bits of M mode. -/
theorem sampled_legal (h : CSRLegal c) : CSRLegal c.sampled where
  status := h.status
  medeleg := h.medeleg
  mideleg := h.mideleg
  sie := sieView_within _
  mie := h.mie
  mip := (((h.mip.setBit (by decide) _).setBit (by decide) _).setBit (by decide) _).setBit
    (by decide) _
  mcounteren := h.mcounteren
  scounteren := h.scounteren
  mtvec := h.mtvec
  stvec := h.stvec
  satp := h.satp

theorem trapped_legal (h : CSRLegal c) (cause : Cause) (tval : BitVec 64) :
    CSRLegal (c.trapped cause tval) := by
  have hstatus := h.status.of_agrees (trapped_agrees c cause tval)
  revert hstatus
  unfold RV64Core.trapped
  dsimp only
  split
  · intro hstatus
    exact { h with status := hstatus }
  · intro hstatus
    exact { h with status := hstatus }

theorem csrWrite_legal (h : CSRLegal c) {data : BitVec 64} {a : Option CSRAddr}
    (hw : c.csrWrite data a = .ok (some c')) : CSRLegal c' := by
  have hview : ∀ x, Within x mModeIntMask →
      Within (x &&& ~~~ sModeIntMask ||| data &&& sModeIntMask) mModeIntMask :=
    fun x hx => (hx.and _).or ((within_and data _).trans sModeIntMask_within)
  have hsie := sieView_within
  have hle : ∀ m : BitVec 2, m ≤ 1 → m = 0 ∨ m = 1 := by decide
  unfold RV64Core.csrWrite at hw
  split at hw
  case h_1 => cases hw; exact { h with status := h.status.of_agrees (writeMStatus_agrees _ data) }
  case h_2 => cases hw; exact h
  case h_3 => cases hw; exact { h with medeleg := within_and data _ }
  case h_4 => cases hw; exact { h with mideleg := within_and data _ }
  case h_5 => cases hw; exact { h with sie := hsie _, mie := within_and data _ }
  case h_6 =>
    split at hw
    · rename_i hmode
      cases hw
      exact { h with mtvec := hle _ hmode }
    · cases hw
  case h_7 => cases hw; exact { h with mcounteren := within_and data _ }
  case h_12 => cases hw; exact { h with mip := within_and data _ }
  case h_14 =>
    cases hw
    exact { h with status := h.status.of_agrees (writeSStatus_agrees _ data) }
  case h_15 => cases hw; exact { h with sie := hsie _, mie := hview _ h.mie }
  case h_16 => cases hw; exact { h with stvec := legalTvec_mode data }
  case h_17 => cases hw; exact { h with scounteren := within_and data _ }
  case h_22 => cases hw; exact { h with mip := hview _ h.mip }
  case h_23 =>
    split at hw
    · cases hw
    · cases hw
      exact { h with satp := legalSatp_mode data }
  all_goals
    first
    | cases hw; done
    | cases hw; exact { h with }

theorem effect_legal (h : CSRLegal c) (he : Effect inst c c') : CSRLegal c' := by
  cases he with
  | gpr rd value => exact setGPR_legal h rd value
  | jump rd value pc => exact { setGPR_legal h rd value with }
  | csr n data c'' rd value permitted written =>
    exact setGPR_legal (csrWrite_legal h written) rd value
  | mret => exact { h with status := h.status.of_agrees (returnedM_agrees c) }
  | sret => exact { h with status := h.status.of_agrees (returnedS_agrees c) }

theorem retired_legal (h : CSRLegal c) (l : StepLocals) : CSRLegal (c.advancePC l).retire := by
  unfold RV64Core.advancePC
  split
  · exact { h with }
  · split
    · exact { h with }
    · exact { h with }

end Registers

/-! ## Steps -/

section Steps

variable {β : Type} [SlaveAtomicIOI β] {s t : Machine β}

theorem trapped_core_legal {cause : Cause} {tval : BitVec 64} (h : CSRLegal s.core)
    (ht : Trapped s t cause tval) : CSRLegal t.core := by
  rw [ht.core]
  exact trapped_legal h cause tval

theorem step_legal (h : CSRLegal s.core) (hstep : step s = .ok () t) : CSRLegal t.core := by
  cases wp_ok (step_outcome s) hstep with
  | trapped cause tval hcore =>
    rw [hcore]
    exact { trapped_legal (sampled_legal h) cause tval with }
  | done inst c l he hcore =>
    rw [hcore]
    exact retired_legal (effect_legal (sampled_legal h) he) l

theorem reached_legal {ok : List (Event β) → Prop} (h : Reached ok s) : CSRLegal s.core := by
  induction h with
  | initial h =>
    obtain ⟨c, hc⟩ := h.core
    rw [hc]
    exact reset_legal c
  | environment _ _ _ ih => exact { ih with }
  | @step s t _ hstep _ ih => exact step_legal (s := { s with trace := [] }) ih hstep

/-! The assertions at the end of the step. No other code has one of that name, and where they
stand the status is legal. -/

omit [SlaveAtomicIOI β] in
theorem readTables_stored (s : Machine β) (w : Walked β Addr (BitVec 64)) :
    Stored s (readTables s w) := by
  have hreads : log (w.reads.map fun r => (Event.pteLoad r.1 : Event β)).reverse = [] := by
    unfold log
    rw [List.filter_eq_nil_iff]
    intro e he
    obtain ⟨r, -, rfl⟩ := List.mem_map.mp (List.mem_reverse.mp he)
    exact Bool.false_ne_true
  refine ⟨rfl, ?_⟩
  unfold log at hreads ⊢
  rw [readTables, List.filter_append, hreads, List.nil_append]

/-- The assertions of a lookup. -/
def lookupAsserts : List Assertion := [.canonical, .duplicateMatch, .pteLoadOk]

theorem walkTables_stored (va : BitVec 64) :
    Relates Stored (fun e s t => Stored s t ∧ e ∈ lookupAsserts) (walkTables (β := β) va) := by
  intro s
  unfold wp
  by_cases hmode : Satp.mode s.core.satp = 8
  · have hread := readTables_stored s (pageWalk s.core.satp s.bus va)
    rw [walkTables_eq va s hmode, finish]
    cases (pageWalk s.core.satp s.bus va).result with
    | unreadable => exact ⟨hread, by decide⟩
    | fault => exact hread
    | leaf l pte => exact ⟨hread.core, hread.log⟩
  · unfold walkTables
    rw [bind_of_ok (getCore_run _), if_pos hmode]
    exact ⟨rfl, rfl⟩

/-- A lookup changes neither the core nor the log, whichever way it ends. -/
theorem getTLBEntry_stored (va : BitVec 64) :
    Relates Stored (fun e s t => Stored s t ∧ e ∈ lookupAsserts) (getTLBEntry (β := β) va) := by
  intro s
  have hnoted : Stored s (translating va s) := ⟨rfl, rfl⟩
  refine wp_getTLBEntry ⟨hnoted, by decide⟩ (fun _ => ?_) (fun _ _ => hnoted)
    (fun _ _ _ _ => ⟨hnoted, by decide⟩)
  exact wp_mono (walkTables_stored va (translating va s)) (fun _ _ h => ⟨h.core, h.log⟩)
    (fun _ _ h => ⟨⟨h.1.core, h.1.log⟩, h.2⟩)

theorem within_keeps : KeptWithin (β := β) (fun _ _ => True) (fun a _ => a ≠ .statusBlank) where
  refl _ := trivial
  trans _ _ _ _ _ := trivial
  core _ _ := trivial
  event _ _ _ _ := trivial
  flush _ _ _ := trivial
  translate va s := wp_mono (getTLBEntry_stored va s) (fun _ _ _ => trivial)
    (fun _ _ he => ⟨trivial, fun heq => absurd (heq ▸ he.2) (by decide)⟩)
  abort _ _ ha := ha.2

theorem preExec_legal (h : CSRLegal s.core) :
    wp preExec (fun _ t => CSRLegal t.core) (fun _ _ => True) s := by
  have hsampled := sampled_legal h
  unfold preExec
  simp only [wp_bind, wp_modifyCore, wp_getCore]
  cases s.core.sampled.intToRaise with
  | none => exact hsampled
  | some bits =>
    exact wp_mono (raiseTrap_trapped _ 0 _) (fun _ t ht => trapped_core_legal hsampled ht)
      (fun _ _ _ => trivial)

theorem fetchOutcome_legal {l : StepLocals} (h : CSRLegal s.core) (ho : FetchOutcome s l t) :
    CSRLegal t.core := by
  cases ho with
  | trapped cause tval trap => exact trapped_core_legal h trap
  | executed inst s' silent outcome =>
    have hs' : CSRLegal ({ s' with trace := .fetched inst :: s'.trace } : Machine β).core := by
      rw [silent.core]
      exact h
    cases outcome with
    | trapped cause tval trap => exact trapped_core_legal hs' trap
    | illegal hsilent =>
      rw [hsilent.core]
      exact hs'
    | done effect => exact effect_legal hs' effect

theorem endStep_asserts (l : StepLocals) (h : CSRLegal s.core) :
    wp (endStep l) (fun _ _ => True) (fun e _ => e ≠ .statusBlank) s := by
  have hend : ∀ s : Machine β, CSRLegal s.core → wp (do
      modifyCore (·.advancePC l)
      modifyCore (·.retire)
      let c ← getCore
      assertThat (statusBlankZero c.status = true) .statusBlank : Emu β Unit)
        (fun _ _ => True) (fun e _ => e ≠ .statusBlank) s := by
    intro s h
    simp only [wp_bind, wp_modifyCore, wp_getCore, wp_assertThat]
    exact ⟨fun _ => trivial, fun hn => absurd (retired_legal h l).status.blank hn⟩
  unfold endStep
  dsimp only
  rw [wp_ite]
  refine ⟨fun _ => ?_, fun _ => hend s h⟩
  rw [wp_bind]
  refine wp_mono (wp_and (raiseTrap_trapped _ _ s) (within_keeps.raiseTrap _ _ s))
    (fun _ t ht => hend t (trapped_core_legal h ht.1)) (fun _ _ he => he.2.2)

/-- Until the end of a step the registers stay legal. -/
theorem fetched_asserts (h : CSRLegal s.core) :
    wp (do
      let l ← fetchDecodeExec
      endStep l) (fun _ _ => True) (fun e _ => e ≠ .statusBlank) s := by
  rw [wp_bind]
  exact wp_mono (wp_and (fetchDecodeExec_outcome s) (within_keeps.fetchDecodeExec s))
    (fun l t ht => endStep_asserts l (fetchOutcome_legal h ht.1)) (fun _ _ he => he.2.2)

theorem step_asserts (h : CSRLegal s.core) (t : Machine β) : step s ≠ .error .statusBlank t := by
  have hwp : wp step (fun _ _ => True) (fun e _ => e ≠ .statusBlank) s := by
    unfold step
    rw [wp_bind]
    refine wp_mono (wp_and (preExec_legal h) (within_keeps.preExec s)) (fun _ t ht => ?_)
      (fun _ _ he => he.2.2)
    rw [wp_bind, wp_getCore, wp_ite]
    exact ⟨fun _ => endStep_asserts {} ht.1, fun _ => fetched_asserts ht.1⟩
  intro herr
  exact wp_error hwp herr rfl

/-- The registers of every state that a run reaches are legal, and the assertions at the end of
the next step do not fail. -/
theorem csr_legal (s : Machine β) (h : Reached (fun _ => True) s) :
    CSRLegal s.core ∧ ∀ trace t, step { s with trace := trace } ≠ .error .statusBlank t := by
  have hlegal := reached_legal h
  refine ⟨hlegal, fun trace t => ?_⟩
  exact step_asserts (s := { s with trace := trace }) hlegal t

end Steps

/-- M mode code at the start of the memory that writes `mstatus` twice and returns. -/
def csrMachine : Machine (AddrBus Empty) :=
  Machine.start (RV64Core.reset { (default : RV64Core) with currentProgramCounter := 0x80000000 })
    -- csrw mstatus, x0; lui x1, 1; csrw mstatus, x1; mret
    (memoryBus fun a => (0x3020007330009073000010b730001073#128).extractLsb' (8 * a) 8)

theorem csrMachine_initial : csrMachine.Initial := ⟨⟨_, rfl⟩, fun _ => rfl, rfl⟩

theorem csr_legal_written :
    CSRLegal (after csrMachine 4).core ∧
    ∀ trace t, step { after csrMachine 4 with trace := trace } ≠ .error .statusBlank t :=
  csr_legal _ (reached_after (.initial csrMachine_initial) 4 (by decide +kernel))

end NextEmu.Simple.Legality
