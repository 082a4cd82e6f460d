import NextEmu.Simple.CSRFrame
import NextEmu.Simple.CompressedFetch
import NextEmu.Simple.Permitted

/-!
# An instruction makes at most one access

Besides what it does to the core, the code of an instruction does no more than one of these: a
call of one data path, with a size that the path is made for, or an `sfence.vma`. So a step is
a fetch, at most one such call, and work on the core alone, however it ends.
-/

namespace NextEmu.Simple.SingleAccess

open NextEmu.Lib.AbortState NextEmu.Lib.BitField NextEmu.Sdk
open CompressedFetch Conformance DataPaths Isolation Outcomes Permitted

variable {β : Type}

/-- The event is a call of the bus. -/
def onBus : Event β → Bool
  | .load _ _ | .store _ _ | .reserve _ _ | .check _ _ | .pteLoad _ => true
  | _ => false

/-- Only a call of the bus touches anything. -/
theorem touches_none {e : Event β} (h : onBus e = false) : touches e = none := by
  cases e with
  | load | store | reserve | check | pteLoad => cases h
  | _ => rfl

/-- Nothing but the core has changed, which is that of the same hart, and the bus was not
called. -/
structure Internal (s t : Machine β) : Prop where
  hart : t.core.rvHartID = s.core.rvHartID
  bus : t.bus = s.bus
  mmu : t.mmu = s.mmu
  events : ∃ evs, t.trace = evs ++ s.trace ∧ ∀ e ∈ evs, onBus e = false

theorem Internal.refl (s : Machine β) : Internal s s := ⟨rfl, rfl, rfl, [], rfl, nofun⟩

theorem Internal.trans (s t u : Machine β) (h : Internal s t) (h' : Internal t u) :
    Internal s u := by
  obtain ⟨evs, htrace, hevs⟩ := h.events
  obtain ⟨evs', htrace', hevs'⟩ := h'.events
  refine ⟨h'.hart.trans h.hart, h'.bus.trans h.bus, h'.mmu.trans h.mmu, evs' ++ evs, ?_,
    fun e he => ?_⟩
  · rw [htrace', htrace, List.append_assoc]
  · rcases List.mem_append.mp he with he | he
    · exact hevs' e he
    · exact hevs e he

/-- Code that works on the core. -/
abbrev Inner {α : Type} (x : Emu β α) : Prop := Tracks Internal (fun _ _ => True) x

section Inner

variable {α ρ : Type}

theorem inner_pure (a : α) : Inner (β := β) (pure a) := Tracks.pure Internal.refl a

theorem inner_throw (a : Assertion) : Inner (β := β) (throw a : Emu β α) :=
  Tracks.throw Internal.refl fun _ => trivial

theorem inner_bind {x : Emu β α} {f : α → Emu β ρ} (hx : Inner x) (hf : ∀ a, Inner (f a)) :
    Inner (x >>= f) := Tracks.bind Internal.trans hx hf

theorem inner_getCore : Inner (β := β) getCore := Internal.refl

theorem inner_modifyCore {f : RV64Core → RV64Core} (hf : ∀ c, (f c).rvHartID = c.rvHartID) :
    Inner (β := β) (modifyCore f) := fun s => ⟨hf s.core, rfl, rfl, [], rfl, nofun⟩

theorem inner_setGPR (rd : BitVec 5) (value : BitVec 64) : Inner (β := β) (setGPR rd value) :=
  inner_modifyCore fun c => by
    unfold RV64Core.setGPR
    split <;> rfl

theorem inner_emit {e : Event β} (h : onBus e = false) : Inner (emit e) :=
  fun s => ⟨rfl, rfl, rfl, [e], rfl, fun e' he => by rw [List.mem_singleton.mp he, h]⟩

theorem inner_assertThat (p : Prop) [Decidable p] (a : Assertion) :
    Inner (β := β) (assertThat p a) := Tracks.ite (inner_pure ()) (inner_throw a)

theorem trapped_hart (c : RV64Core) (cause : Cause) (tval : BitVec 64) :
    (c.trapped cause tval).rvHartID = c.rvHartID := by
  unfold RV64Core.trapped
  dsimp only
  split <;> rfl

theorem inner_raiseTrap (cause : Cause) (tval : BitVec 64) :
    Inner (β := β) (raiseTrap cause tval) := by
  refine inner_bind (inner_emit rfl) fun _ => inner_bind inner_getCore fun _ => ?_
  refine inner_bind (inner_assertThat _ _) fun _ => inner_bind (inner_assertThat _ _) fun _ => ?_
  refine inner_bind (inner_modifyCore fun c => trapped_hart c cause tval) fun _ => ?_
  exact inner_bind inner_getCore fun _ => inner_assertThat _ _

theorem inner_trap_then (cause : Cause) (tval : BitVec 64) (r : ρ) :
    Inner (β := β) (do raiseTrap cause tval; return r) :=
  inner_bind (inner_raiseTrap cause tval) fun _ => inner_pure r

theorem inner_set_then (rd : BitVec 5) (value : BitVec 64) (r : ρ) :
    Inner (β := β) (do setGPR rd value; return r) :=
  inner_bind (inner_setGPR rd value) fun _ => inner_pure r

theorem inner_jumpTo (npc : BitVec 64) (link : Option (BitVec 5 × BitVec 64)) :
    Inner (β := β) (jumpTo npc link) := by
  refine Tracks.ite (inner_trap_then _ _ _) ?_
  have hend : Inner (β := β) (do
      modifyCore fun c => { c with currentProgramCounter := npc }
      return newPCSet) := inner_bind (inner_modifyCore fun _ => rfl) fun _ => inner_pure _
  cases link with
  | none => exact hend
  | some l => exact inner_bind (inner_setGPR _ _) fun _ => hend

theorem inner_aluGPR (rd : BitVec 5) (a b : BitVec 64) (op : ALUOp) (op32 : Bool) :
    Inner (β := β) (aluGPR rd a b op op32) := by
  refine inner_bind ?_ fun _ => inner_set_then _ _ _
  unfold aluExec
  cases aluValue a b op op32 with
  | none => exact inner_throw _
  | some v => exact inner_pure v

theorem inner_amoEnd (exc : BitVec 63) (addr : BitVec 64) (rd : BitVec 5) (result : BitVec 64) :
    Inner (β := β) (amoEnd exc addr rd result) := by
  unfold amoEnd
  dsimp only
  exact Tracks.ite (inner_set_then _ _ _) (inner_trap_then _ _ _)

section Instructions

variable (inst : BitVec 32)

theorem inner_execJalr : Inner (β := β) (execJalr inst) :=
  inner_bind inner_getCore fun _ => inner_bind (inner_assertThat _ _) fun _ => inner_jumpTo _ _

theorem inner_execBranch : Inner (β := β) (execBranch inst) := by
  refine inner_bind inner_getCore fun c => ?_
  split
  · exact inner_pure _
  · exact inner_pure _
  · dsimp only
    exact Tracks.ite (inner_trap_then _ _ _)
      (inner_bind (inner_modifyCore fun _ => rfl) fun _ => inner_pure _)

theorem inner_execImm (decoded : Option (ALUOp × BitVec 64)) (op32 : Bool) :
    Inner (β := β) (execImm decoded op32 inst) := by
  cases decoded with
  | none => exact inner_pure _
  | some d => exact inner_bind inner_getCore fun c => inner_aluGPR _ _ _ _ _

theorem inner_execReg (decoded : Option ALUOp) (op32 : Bool) :
    Inner (β := β) (execReg decoded op32 inst) := by
  cases decoded with
  | none => exact inner_pure _
  | some op => exact inner_bind inner_getCore fun c => inner_aluGPR _ _ _ _ _

theorem csrWrite_hart {c c' : RV64Core} {data : BitVec 64} {a : Option CSRAddr}
    (h : c.csrWrite data a = .ok (some c')) : c'.rvHartID = c.rvHartID := by
  cases a with
  | none => cases h
  | some a =>
    by_cases ha : a = .mhartid
    · subst ha
      cases h
    · have hne : a.word ≠ some .hartID := by
        cases a <;> first | exact absurd rfl ha | exact nofun
      exact csrWrite_word hne h

theorem inner_csrInstr (write : Bool) (newValue : BitVec 64 → Option (BitVec 64)) :
    Inner (β := β) (csrInstr inst write newValue) := by
  intro s
  unfold csrInstr
  rw [wp_bind, wp_getCore]
  dsimp only
  split
  · exact inner_pure _ s
  cases s.core.csrRead (CSRAddr.ofNumber (field inst 20 12)) with
  | none => exact inner_pure _ s
  | some csrResult =>
    dsimp only
    cases newValue csrResult with
    | none => exact inner_set_then _ _ _ s
    | some data =>
      dsimp only
      rcases hwrite : s.core.csrWrite data (CSRAddr.ofNumber (field inst 20 12)) with e | _ | c'
      · exact inner_throw e s
      · exact inner_pure _ s
      · -- the core that is written is the one that was read
        have hset : Internal s { s with core := c' } :=
          ⟨csrWrite_hart hwrite, rfl, rfl, [], rfl, nofun⟩
        rw [wp_bind, wp_modifyCore]
        exact wp_mono (inner_set_then _ _ _ _) (fun _ _ ht => hset.trans _ _ _ ht)
          fun _ _ ht => ⟨hset.trans _ _ _ ht.1, trivial⟩

theorem inner_cAlu (rd : BitVec 5) (b : BitVec 64) (op : ALUOp) (op32 : Bool) :
    Inner (β := β) (cAlu rd b op op32) :=
  inner_bind inner_getCore fun _ => inner_aluGPR _ _ _ _ _

theorem inner_cJump (imm : BitVec 64) : Inner (β := β) (cJump imm) :=
  inner_bind (inner_modifyCore fun _ => rfl) fun _ => inner_pure _

theorem inner_execCAddi16spLui : Inner (β := β) (execCAddi16spLui inst) := by
  refine inner_bind inner_getCore fun c => ?_
  dsimp only
  split
  · exact Tracks.ite (inner_set_then _ _ _) (inner_pure _)
  · exact Tracks.ite (inner_set_then _ _ _) (inner_pure _)

theorem inner_execCAlu : Inner (β := β) (execCAlu inst) := by
  refine inner_bind inner_getCore fun c =>
    Tracks.ite (Tracks.ite (inner_cAlu _ _ _ _) (inner_pure _))
      (Tracks.ite (inner_cAlu _ _ _ _) ?_)
  dsimp only
  split
  · exact inner_cAlu _ _ _ _
  · exact inner_cAlu _ _ _ _
  · exact Tracks.ite (inner_pure _) (inner_cAlu _ _ _ _)
  · exact Tracks.ite (inner_pure _) (inner_cAlu _ _ _ _)

theorem inner_execCJrMvEbJalrAdd : Inner (β := β) (execCJrMvEbJalrAdd inst) := by
  refine inner_bind inner_getCore fun c =>
    Tracks.ite (Tracks.ite (Tracks.ite ?_ (inner_jumpTo _ _)) (inner_cAlu _ _ _ _)) ?_
  · exact inner_trap_then _ _ _
  · exact Tracks.ite (Tracks.ite (inner_pure _) (inner_jumpTo _ _)) (inner_set_then _ _ _)

end Instructions

theorem inner_endStep (l : StepLocals) : Inner (β := β) (endStep l) := by
  have hadvance : ∀ c : RV64Core, (c.advancePC l).rvHartID = c.rvHartID := by
    intro c
    unfold RV64Core.advancePC
    split
    · rfl
    · split <;> rfl
  have hend : Inner (β := β) (do
      modifyCore (·.advancePC l)
      modifyCore (·.retire)
      let c ← getCore
      assertThat (statusBlankZero c.status = true) .statusBlank) :=
    inner_bind (inner_modifyCore hadvance) fun _ =>
      inner_bind (inner_modifyCore fun _ => rfl) fun _ =>
        inner_bind inner_getCore fun _ => inner_assertThat _ _
  unfold endStep
  dsimp only
  exact Tracks.ite (inner_bind (inner_raiseTrap _ _) fun _ => hend) hend

end Inner

/-! ## One call -/

variable [SlaveAtomicIOI β]

/-- What an instruction may do beyond the core. -/
inductive Called (s : Machine β) : Machine β → Prop
  | none : Called s s
  | fence (vaddr asid : BitVec 64) : Called s { s with mmu := s.mmu.flush vaddr asid }
  | access (a : DataAccess) (h : WellFormed a) : Called s (final a.run s)

/-- One call, and work on the core behind it. -/
def CalledThen (s t : Machine β) : Prop := ∃ u, Called s u ∧ Internal u t

/-- Code that makes one call, or none. -/
abbrev Once {α : Type} (x : Emu β α) : Prop := Tracks CalledThen (fun _ _ => True) x

section Once

variable {α ρ : Type}

theorem once_inner {x : Emu β α} (h : Inner x) : Once x :=
  h.mono fun s _ ht => ⟨s, .none, ht⟩

theorem once_bind {x : Emu β α} {f : α → Emu β ρ} (hx : Once x) (hf : ∀ a, Inner (f a)) :
    Once (x >>= f) := by
  intro s
  rw [wp_bind]
  refine wp_mono (hx s) (fun a t ht => ?_) (fun _ _ ht => ht)
  obtain ⟨u, hcall, hu⟩ := ht
  exact wp_mono (hf a t) (fun _ v hv => ⟨u, hcall, hu.trans _ _ _ hv⟩)
    (fun _ v hv => ⟨⟨u, hcall, hu.trans _ _ _ hv.1⟩, trivial⟩)

theorem once_getCore {f : RV64Core → Emu β ρ} (hf : ∀ c, Once (f c)) : Once (getCore >>= f) :=
  fun s => hf s.core s

theorem once_access {a : DataAccess} (h : WellFormed a) : Once (β := β) a.run := by
  intro s
  refine wp_mono (wp_run a.run s) (fun r t ht => ?_) (fun e t ht => ⟨?_, trivial⟩)
  · rw [← final_of_ok ht]
    exact ⟨_, .access a h, Internal.refl _⟩
  · rw [← final_of_error ht]
    exact ⟨_, .access a h, Internal.refl _⟩

end Once

/-! ## The instructions -/

/-- The sizes of the accesses. -/
def Sizes (n : Nat) : Prop := n = 1 ∨ n = 2 ∨ n = 4 ∨ n = 8

instance (n : Nat) : Decidable (Sizes n) := inferInstanceAs (Decidable (_ ∨ _))

section Memory

theorem once_memRead (va : BitVec 64) {n : Nat} (hn : Sizes n) :
    Once (β := β) (memRead va n) := by
  refine Tracks.ite (once_inner (inner_trap_then _ _ _)) ?_
  refine once_bind (once_access (a := .read va n) hn) fun r => Tracks.ite (inner_pure _) ?_
  exact inner_bind (inner_assertThat _ _) fun _ => inner_trap_then _ _ _

theorem once_memWrite (va : BitVec 64) {n : Nat} (hn : Sizes n) (src : BitVec 64) :
    Once (β := β) (memWrite va n src) := by
  refine Tracks.ite (once_inner (inner_trap_then _ _ _)) ?_
  refine once_bind (once_access (a := .write va n _) hn) fun r => Tracks.ite (inner_pure _) ?_
  exact inner_bind (inner_assertThat _ _) fun _ => inner_raiseTrap _ _

theorem once_loadGPR (va : BitVec 64) {n : Nat} (hn : Sizes n)
    (ext : BitVec (8 * n) → BitVec 64) (rd : BitVec 5) : Once (β := β) (loadGPR va n ext rd) := by
  refine once_bind (once_memRead va hn) fun r => ?_
  cases r with
  | some buf => exact inner_set_then _ _ _
  | none => exact inner_bind (inner_pure ()) fun _ => inner_pure _

theorem once_write_then (va : BitVec 64) {n : Nat} (hn : Sizes n) (src : BitVec 64) :
    Once (β := β) (do memWrite va n src; return retired) :=
  once_bind (once_memWrite va hn src) fun _ => inner_pure _

end Memory

section Exec

variable (inst : BitVec 32)

theorem once_execLoad : Once (β := β) (execLoad inst) := by
  refine once_getCore fun c => ?_
  dsimp only
  split
  case h_8 => exact once_inner (inner_pure _)
  all_goals exact once_loadGPR _ (by decide) _ _

theorem once_execStore : Once (β := β) (execStore inst) := by
  refine once_getCore fun c => ?_
  dsimp only
  split
  case h_5 => exact once_inner (inner_pure _)
  all_goals exact once_write_then _ (by decide) _

theorem once_execAmo : Once (β := β) (execAmo inst) := by
  refine Relates.ite_of (fun _ => once_inner (inner_pure _)) fun hf3 => once_getCore fun c => ?_
  have hsize : 1 <<< (RVInst.funct3 inst).toNat = 4 ∨ 1 <<< (RVInst.funct3 inst).toNat = 8 := by
    rcases Decidable.not_and_iff_not_or_not.mp hf3 with h | h
    · rw [Decidable.not_not.mp h]
      exact .inl rfl
    · rw [Decidable.not_not.mp h]
      exact .inr rfl
  cases hop : AMOFunct.ofBits ((RVInst.funct7 inst >>> 2).setWidth 5) with
  | none => exact once_inner (inner_pure _)
  | some op =>
    cases op with
    | lr =>
      exact Tracks.ite (once_inner (inner_pure _))
        (once_bind (once_access (a := .loadReserved _ _) hsize) fun _ => inner_amoEnd _ _ _ _)
    | sc =>
      exact once_bind (once_access (a := .storeConditional _ _ _) hsize) fun _ =>
        inner_amoEnd _ _ _ _
    | _ =>
      exact once_bind (once_access (a := .amo _ _ _ _)
        ⟨hsize, AMOFunct.noConfusion, AMOFunct.noConfusion⟩) fun _ => inner_amoEnd _ _ _ _

theorem once_sfenceVma (va asid : BitVec 64) : Once (β := β) (sfenceVma va asid) := by
  refine once_getCore fun c => Tracks.ite (once_inner (inner_pure _)) ?_
  refine once_bind (fun s => ?_) fun _ => inner_pure _
  exact ⟨_, .fence va asid, Internal.refl _⟩

theorem once_execPriv : Once (β := β) (execPriv inst) := by
  have hecall : Inner (β := β) ecall := inner_bind inner_getCore fun _ => inner_raiseTrap _ _
  have hebreak : Inner (β := β) ebreak := inner_raiseTrap _ _
  have hmret : Inner (β := β) mret := inner_bind inner_getCore fun _ =>
    Tracks.ite (inner_pure _)
      (inner_bind (inner_modifyCore fun _ => rfl) fun _ => inner_pure _)
  have hsret : Inner (β := β) sret := inner_bind inner_getCore fun _ =>
    Tracks.ite (inner_pure _) (Tracks.ite (inner_pure _)
      (inner_bind (inner_modifyCore fun _ => rfl) fun _ => inner_pure _))
  have hnone : Once (β := β) (pure instrIllegal) := once_inner (inner_pure _)
  unfold execPriv
  dsimp only
  split
  · split
    · split
      · exact once_inner (inner_bind hecall fun _ => inner_pure _)
      · exact once_inner (inner_bind hebreak fun _ => inner_pure _)
      · exact hnone
    · exact hnone
  · split
    · split
      · exact once_inner (inner_bind hsret fun _ => inner_pure _)
      · exact once_inner (inner_pure _)
      · exact hnone
    · exact once_inner (inner_pure _)
  · exact Tracks.ite (once_inner (inner_bind hmret fun _ => inner_pure _)) hnone
  · exact once_getCore fun c => once_bind (once_sfenceVma _ _) fun _ => inner_pure _
  · exact hnone

theorem once_execSystem : Once (β := β) (execSystem inst) := by
  unfold execSystem
  split
  · exact once_execPriv inst
  · exact once_inner (inner_bind inner_getCore fun c => inner_csrInstr inst _ _)
  · exact once_inner (inner_bind inner_getCore fun c => inner_csrInstr inst _ _)
  · exact once_inner (inner_bind inner_getCore fun c => inner_csrInstr inst _ _)
  · exact once_inner (inner_csrInstr inst _ _)
  · exact once_inner (inner_csrInstr inst _ _)
  · exact once_inner (inner_csrInstr inst _ _)
  · exact once_inner (inner_pure _)

theorem once_exec32 : Once (β := β) (exec32 inst) := by
  unfold exec32
  split
  · exact once_inner (inner_set_then _ _ _)
  · exact once_inner (inner_bind inner_getCore fun c => inner_set_then _ _ _)
  · exact once_inner (inner_bind inner_getCore fun c => inner_jumpTo _ _)
  · exact once_inner (inner_execJalr inst)
  · exact once_inner (inner_execBranch inst)
  · exact once_execLoad inst
  · exact once_execStore inst
  · exact once_inner (inner_execImm inst _ _)
  · exact once_inner (inner_execImm inst _ _)
  · exact once_inner (inner_execReg inst _ _)
  · exact once_inner (inner_execReg inst _ _)
  · exact once_execAmo inst
  · exact once_inner (inner_pure _)
  · exact once_execSystem inst
  · exact once_inner (inner_pure _)

end Exec

section Compressed

theorem once_cLoad (base : BitVec 5) (imm : BitVec 64) {n : Nat} (hn : Sizes n)
    (rd : BitVec 5) : Once (β := β) (cLoad base imm n rd) :=
  once_getCore fun _ => once_loadGPR _ hn _ _

theorem once_cStore (base : BitVec 5) (imm : BitVec 64) {n : Nat} (hn : Sizes n)
    (rs2 : BitVec 5) : Once (β := β) (cStore base imm n rs2) :=
  once_getCore fun _ => once_write_then _ hn _

variable (inst : BitVec 32)

theorem once_execRvc : Once (β := β) (execRvc inst) := by
  unfold execRvc
  split
  · exact once_inner (inner_bind inner_getCore fun c =>
      Tracks.ite (inner_set_then _ _ _) (inner_pure _))
  · exact once_cLoad _ _ (by decide) _
  · exact once_cLoad _ _ (by decide) _
  · exact once_cStore _ _ (by decide) _
  · exact once_cStore _ _ (by decide) _
  · exact once_inner (Tracks.ite (inner_cAlu _ _ _ _) (inner_pure _))
  · exact once_inner (inner_cAlu _ _ _ _)
  · exact once_inner (inner_set_then _ _ _)
  · exact once_inner (inner_execCAddi16spLui inst)
  · exact once_inner (inner_execCAlu inst)
  · exact once_inner (inner_cJump _)
  · exact once_inner (inner_bind inner_getCore fun c =>
      Tracks.ite (inner_cJump _) (inner_pure _))
  · exact once_inner (inner_bind inner_getCore fun c =>
      Tracks.ite (inner_cJump _) (inner_pure _))
  · exact once_inner (Tracks.ite (inner_cAlu _ _ _ _) (inner_pure _))
  · exact once_cLoad _ _ (by decide) _
  · exact once_cLoad _ _ (by decide) _
  · exact once_inner (inner_execCJrMvEbJalrAdd inst)
  · exact once_cStore _ _ (by decide) _
  · exact once_cStore _ _ (by decide) _
  · exact once_inner (inner_pure _)

/-- The code of an instruction. -/
theorem once_execute : Once (β := β) (execute inst) := by
  unfold execute
  split
  · exact once_execRvc inst
  · exact once_exec32 inst

end Compressed

/-! ## The step -/

section Step

variable {s : Machine β}

/-- The fetch of a step, if it comes to one. -/
inductive Fetches (s : Machine β) : Machine β → Prop
  | none : Fetches s (fetching s)
  | fetch : Fetches s (final (vaddrInstFetchMMUAPI s.core.currentProgramCounter 4) (fetching s))

/-- No more than a fetch, and work on the core. -/
def FetchedThen (s t : Machine β) : Prop := ∃ m, Fetches s m ∧ Internal m t

/-- A step that fetches no word. -/
theorem step_unfetched (h : fetchedWord s = none) : FetchedThen s (final step s) := by
  have hinner : ∀ {x : Emu β Unit} {t : Machine β}, Inner x → FetchedThen s t →
      wp x (fun _ u => FetchedThen s u) (fun _ u => FetchedThen s u) t := by
    rintro x t hx ⟨m, hm, ht⟩
    exact wp_mono (hx t) (fun _ _ hu => ⟨m, hm, ht.trans _ _ _ hu⟩)
      (fun _ _ hu => ⟨m, hm, ht.trans _ _ _ hu.1⟩)
  have hstart : FetchedThen s (fetching s) := ⟨_, .none, Internal.refl _⟩
  suffices hstep : wp step (fun _ t => FetchedThen s t) (fun _ t => FetchedThen s t) s by
    unfold wp at hstep
    unfold final
    cases hs : step s with
    | ok r t =>
      rw [hs] at hstep
      exact hstep
    | error e t =>
      rw [hs] at hstep
      exact hstep
  unfold step preExec
  simp only [wp_bind, wp_modifyCore, wp_getCore]
  cases hint : s.core.sampled.intToRaise with
  | some bits =>
    refine wp_mono (wp_and (raiseTrap_trapped _ 0 _) (hinner (inner_raiseTrap _ 0) hstart))
      (fun _ t ht => ?_) (fun _ t ht => ht.2)
    have hn : t.core.needTrap = true := by
      rw [ht.1.core]
      exact trapped_needTrap _ _ _
    rw [if_pos hn]
    exact hinner (inner_endStep {}) ht.2
  | none =>
    have hclear : ¬ s.core.sampled.needTrap = true := Bool.false_ne_true
    simp only [wp_pure, if_neg hclear]
    unfold fetchDecodeExec
    simp only [wp_bind, wp_getCore, wp_ite]
    refine ⟨fun _ => ?_, fun _ => ?_⟩
    · exact wp_mono (hinner (inner_raiseTrap _ _) hstart)
        (fun _ t ht => hinner (inner_endStep {}) ht) (fun _ _ ht => ht)
    · refine wp_mono (wp_run _ _) (fun r t ht => ?_) (fun e t ht => ?_)
      · have hfetched : FetchedThen s t := by
          refine ⟨_, .fetch, ?_⟩
          have hfinal : final (vaddrInstFetchMMUAPI s.core.currentProgramCounter 4) (fetching s) =
              t := final_of_ok ht
          rw [hfinal]
          exact Internal.refl t
        simp only [wp_assertThat, wp_pure]
        refine ⟨fun _ => ⟨fun _ => ?_, fun _ => hfetched⟩, fun hok => ?_⟩
        · exact wp_mono (hinner (inner_raiseTrap _ _) hfetched)
            (fun _ u hu => hinner (inner_endStep {}) hu) (fun _ _ hu => hu)
        · obtain ⟨fb, w⟩ := r
          have hfb : fb = .accessOk := Decidable.of_not_not hok
          subst hfb
          have hword : fetch s = .ok (.accessOk, w) t := ht
          unfold fetchedWord at h
          rw [hint, hword] at h
          cases h
      · refine ⟨_, .fetch, ?_⟩
        have hfinal : final (vaddrInstFetchMMUAPI s.core.currentProgramCounter 4) (fetching s) =
            t := final_of_error ht
        rw [hfinal]
        exact Internal.refl t

/-- A step is a fetch, at most one call, and work on the core. -/
theorem step_called (s : Machine β) : ∃ m m' u, Fetches s m ∧ Internal m m' ∧ m'.core = m.core ∧
    Called m' u ∧ Internal u (final step s) := by
  cases hw : fetchedWord s with
  | none =>
    obtain ⟨m, hm, ht⟩ := step_unfetched hw
    exact ⟨m, m, m, hm, Internal.refl m, rfl, .none, ht⟩
  | some w =>
    obtain ⟨-, t, hfetch⟩ := fetchedWord_some hw
    have hfinal : final (vaddrInstFetchMMUAPI s.core.currentProgramCounter 4) (fetching s) = t :=
      final_of_ok hfetch
    have hdec : decoding s w = { t with trace := .fetched w :: t.trace } := by
      unfold decoding
      rw [hfetch]
    have honce : Once (do
        let flags ← execute w
        endStep ({ inst := w, isCompressedInst := isCompressed w, flags := flags } : StepLocals) :
          Emu β Unit) := once_bind (once_execute w) fun _ => inner_endStep _
    obtain ⟨u, hcall, hu⟩ := honce.final (decoding s w)
    rw [← final_congr (step_eq hw)] at hu
    refine ⟨t, decoding s w, u, hfinal ▸ .fetch, ?_, ?_, hcall, hu⟩
    · rw [hdec]
      exact inner_emit (e := .fetched w) rfl t
    · rw [hdec]

end Step

end NextEmu.Simple.SingleAccess
