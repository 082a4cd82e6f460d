import NextEmu.Simple.Conformance
import NextEmu.Simple.RvcConformance

/-!
# Jumps to even targets

Jumps and branches check their target or compute it from an even offset, so no
instruction leaves an odd PC behind when it was started at an even one.
-/

namespace NextEmu.Simple.EvenJumps

open NextEmu.Lib.AbortState NextEmu.Sdk
open Conformance Outcomes RvcImmediates

variable {β : Type}

/-! ## Parity -/

section Parity

variable {a b v : BitVec 64} {inst : BitVec 32}

theorem even_iff : v % 2 = 0 ↔ v.toNat % 2 = 0 := by
  rw [← BitVec.toNat_inj, BitVec.toNat_umod]
  rfl

theorem even_add (ha : a % 2 = 0) (hb : b % 2 = 0) : (a + b) % 2 = 0 := by
  rw [even_iff] at *
  rw [BitVec.toNat_add]
  omega

theorem even_of_bit (h : v.getLsbD 0 = false) : v % 2 = 0 := by
  unfold BitVec.getLsbD at h
  rw [Nat.testBit_zero, decide_eq_false_iff_not] at h
  rw [even_iff]
  omega

/-- An offset that is put together behind a zero bit. -/
theorem even_offset {n : Nat} (x : BitVec n) : (x ++ 0#1).signExtend 64 % 2 = 0 := by
  have hbit : (x ++ 0#1).getLsbD 0 = false := by
    rw [BitVec.getLsbD_append]
    rfl
  refine even_of_bit ?_
  rw [BitVec.getLsbD_signExtend, if_pos (Nat.succ_pos n), hbit]
  rfl

theorem even_immJ : RVC.immJ inst % 2 = 0 := by
  rw [immJ_eq]
  exact even_offset _

theorem even_immB : RVC.immB inst % 2 = 0 := by
  rw [immB_eq]
  exact even_offset _

theorem even_trapPC (tvec cause : BitVec 64) : trapPC tvec cause % 2 = 0 := by
  have hbase : (TrapVector.base tvec).setWidth 64 <<< 2 % 2 = 0 := by
    refine even_of_bit ?_
    simp
  refine even_add hbase ?_
  split
  · have hfour : BitVec.toNat (4 : BitVec 64) = 4 := rfl
    rw [even_iff, BitVec.toNat_mul, hfour]
    omega
  · rfl

end Parity

/-! ## Code that keeps the PC even -/

section Code

variable {ρ α : Type}

/-- Started at an even PC it leaves one. -/
def KeepsEven (x : Emu β ρ) : Prop :=
  ∀ s, s.core.currentProgramCounter % 2 = 0 →
    wp x (fun _ t => t.core.currentProgramCounter % 2 = 0) (fun _ _ => True) s

theorem even_pure (r : ρ) : KeepsEven (β := β) (pure r) := fun _ h => h

theorem even_throw (e : Assertion) : KeepsEven (β := β) (throw e : Emu β ρ) := fun _ _ => trivial

theorem even_bind {x : Emu β α} {f : α → Emu β ρ} (hx : KeepsEven x)
    (hf : ∀ a, KeepsEven (f a)) : KeepsEven (x >>= f) := by
  intro s h
  rw [wp_bind]
  exact wp_mono (hx s h) (fun a t ht => hf a t ht) (fun _ _ _ => trivial)

theorem even_getCore {f : RV64Core → Emu β ρ}
    (h : ∀ c, c.currentProgramCounter % 2 = 0 → KeepsEven (f c)) : KeepsEven (getCore >>= f) :=
  fun s hs => h s.core hs s hs

theorem even_ite {p : Prop} [Decidable p] {x y : Emu β ρ} (hx : KeepsEven x)
    (hy : KeepsEven y) : KeepsEven (if p then x else y) := by
  split
  · exact hx
  · exact hy

theorem even_assert {p : Prop} [Decidable p] {a : Assertion} :
    KeepsEven (β := β) (assertThat p a) := even_ite (even_pure ()) (even_throw a)

theorem even_modifyCore {f : RV64Core → RV64Core}
    (hf : ∀ c, c.currentProgramCounter % 2 = 0 → (f c).currentProgramCounter % 2 = 0) :
    KeepsEven (β := β) (modifyCore f) := fun s h => hf s.core h

theorem even_setGPR (rd : BitVec 5) (value : BitVec 64) :
    KeepsEven (β := β) (setGPR rd value) :=
  even_modifyCore fun c h => (setGPR_pc c rd value).symm ▸ h

/-- The end of an instruction that is no jump. -/
theorem even_then {x : Emu β α} (hx : KeepsEven x) (r : ρ) :
    KeepsEven (do let _ ← x; return r) := even_bind hx fun _ => even_pure _

theorem trapped_pc (c : RV64Core) (cause : Cause) (tval : BitVec 64) :
    (c.trapped cause tval).currentProgramCounter = c.currentProgramCounter := by
  unfold RV64Core.trapped
  dsimp only
  split <;> rfl

variable [SlaveAtomicIOI β]

theorem even_careful {ok : ρ → Prop} {x : Emu β ρ} (hx : Careful ok x) : KeepsEven x :=
  fun s h => wp_mono (hx s) (fun _ _ ht => ht.1.core.symm ▸ h) (fun _ _ _ => trivial)

theorem even_raiseTrap (cause : Cause) (tval : BitVec 64) :
    KeepsEven (β := β) (raiseTrap cause tval) := by
  intro s h
  refine wp_mono (raiseTrap_trapped cause tval s) (fun _ t ht => ?_) (fun _ _ _ => trivial)
  rw [ht.core, trapped_pc]
  exact h

theorem even_memRead (va : BitVec 64) (n : Nat) : KeepsEven (β := β) (memRead va n) := by
  refine even_ite (even_then (even_raiseTrap _ _) _) ?_
  refine even_bind (even_careful (silent_read va n)) fun r => even_ite (even_pure _) ?_
  exact even_bind even_assert fun _ => even_then (even_raiseTrap _ _) _

theorem even_memWrite (va : BitVec 64) (n : Nat) (src : BitVec 64) :
    KeepsEven (β := β) (memWrite va n src) := by
  refine even_ite (even_then (even_raiseTrap _ _) _) ?_
  refine even_bind (even_careful (careful_write va n _)) fun r => even_ite (even_pure _) ?_
  exact even_bind even_assert fun _ => even_raiseTrap _ _

theorem even_jumpTo (npc : BitVec 64) (link : Option (BitVec 5 × BitVec 64)) :
    KeepsEven (β := β) (jumpTo npc link) := by
  unfold jumpTo
  split
  · exact even_then (even_raiseTrap _ _) _
  · rename_i heven
    have hset : KeepsEven (β := β) (do
        modifyCore fun c => { c with currentProgramCounter := npc }
        return newPCSet) :=
      even_then (even_modifyCore fun _ _ => Decidable.of_not_not heven) _
    cases link with
    | none => exact hset
    | some l => exact even_bind (even_setGPR _ _) fun _ => hset

theorem even_loadGPR (va : BitVec 64) (n : Nat) (ext : BitVec (8 * n) → BitVec 64)
    (rd : BitVec 5) : KeepsEven (β := β) (loadGPR va n ext rd) := by
  refine even_bind (even_memRead va n) fun r => ?_
  cases r with
  | some buf => exact even_then (even_setGPR _ _) _
  | none => exact even_pure _

omit [SlaveAtomicIOI β] in
theorem even_aluGPR (rd : BitVec 5) (a b : BitVec 64) (op : ALUOp) (op32 : Bool) :
    KeepsEven (β := β) (aluGPR rd a b op op32) := by
  unfold aluGPR aluExec
  cases aluValue a b op op32 with
  | some result => exact even_then (even_setGPR rd result) _
  | none => exact fun _ _ => trivial

theorem even_amoEnd (exc : BitVec 63) (addr : BitVec 64) (rd : BitVec 5) (result : BitVec 64) :
    KeepsEven (β := β) (amoEnd exc addr rd result) := by
  unfold amoEnd
  dsimp only
  exact even_ite (even_then (even_setGPR _ _) _) (even_then (even_raiseTrap _ _) _)

end Code

/-! ## The instructions -/

section Instructions

variable {inst : BitVec 32} [SlaveAtomicIOI β]

theorem even_execBranch : KeepsEven (β := β) (execBranch inst) := by
  refine even_getCore fun c _ => ?_
  split
  · exact even_pure _
  · exact even_pure _
  · dsimp only
    split
    · exact even_then (even_raiseTrap _ _) _
    · rename_i heven
      exact even_then (even_modifyCore fun _ _ => Decidable.of_not_not heven) _

theorem even_execLoad : KeepsEven (β := β) (execLoad inst) := by
  refine even_getCore fun c _ => ?_
  dsimp only
  split
  case h_8 => exact even_pure _
  all_goals exact even_loadGPR _ _ _ _

theorem even_execStore : KeepsEven (β := β) (execStore inst) := by
  refine even_getCore fun c _ => ?_
  dsimp only
  split
  case h_5 => exact even_pure _
  all_goals exact even_then (even_memWrite _ _ _) _

omit [SlaveAtomicIOI β] in
theorem even_execImm (decoded : Option (ALUOp × BitVec 64)) (op32 : Bool) :
    KeepsEven (β := β) (execImm decoded op32 inst) := by
  cases decoded with
  | none => exact even_pure _
  | some d => exact even_getCore fun c _ => even_aluGPR _ _ _ _ _

omit [SlaveAtomicIOI β] in
theorem even_execReg (decoded : Option ALUOp) (op32 : Bool) :
    KeepsEven (β := β) (execReg decoded op32 inst) := by
  cases decoded with
  | none => exact even_pure _
  | some op => exact even_getCore fun c _ => even_aluGPR _ _ _ _ _

theorem even_execAmo : KeepsEven (β := β) (execAmo inst) := by
  refine even_ite (even_pure _) (even_getCore fun c _ => ?_)
  split
  · exact even_pure _
  · refine even_ite (even_pure _) ?_
    exact even_bind (even_careful (silent_loadReserved _ _)) fun _ => even_amoEnd _ _ _ _
  · exact even_bind (even_careful (careful_storeConditional _ _ _)) fun _ => even_amoEnd _ _ _ _
  · exact even_bind (even_careful (careful_amo _ _ _ _)) fun _ => even_amoEnd _ _ _ _

theorem even_execPriv : KeepsEven (β := β) (execPriv inst) := by
  have hecall : KeepsEven (β := β) ecall := even_getCore fun c _ => even_raiseTrap _ _
  have hmret : KeepsEven (β := β) mret := even_getCore fun c _ =>
    even_ite (even_pure _)
      (even_then (even_modifyCore (f := (·.returnedM)) fun _ h => h) true)
  have hsret : KeepsEven (β := β) sret := even_getCore fun c _ =>
    even_ite (even_pure _) (even_ite (even_pure _)
      (even_then (even_modifyCore (f := (·.returnedS)) fun _ h => h) true))
  have hflush : ∀ va asid, KeepsEven (β := β) (sv39FlushTLBSfenceVma va asid) :=
    fun va asid s h => h
  unfold execPriv
  dsimp only
  split
  · split
    · split
      · exact even_then hecall _
      · exact even_then (even_raiseTrap _ _) _
      · exact even_pure _
    · exact even_pure _
  · split
    · split
      · exact even_bind hsret fun _ => even_pure _
      · exact even_pure _
      · exact even_pure _
    · exact even_pure _
  · exact even_ite (even_bind hmret fun _ => even_pure _) (even_pure _)
  · refine even_getCore fun c _ => even_bind (even_getCore fun c _ => ?_) fun _ => even_pure _
    exact even_ite (even_pure _) (even_then (hflush _ _) _)
  · exact even_pure _

omit [SlaveAtomicIOI β] in
theorem even_csrInstr (write : Bool) (newValue : BitVec 64 → Option (BitVec 64)) :
    KeepsEven (β := β) (csrInstr inst write newValue) := by
  refine even_getCore fun c hc => even_ite (even_pure _) ?_
  split
  · exact even_pure _
  · split
    · exact even_then (even_setGPR _ _) _
    · split
      · exact even_throw _
      · exact even_pure _
      · rename_i hwrite
        refine even_bind (even_modifyCore fun _ _ => ?_) fun _ => even_then (even_setGPR _ _) _
        rw [(csrWrite_unwritten hwrite).pc]
        exact hc

theorem even_execSystem : KeepsEven (β := β) (execSystem inst) := by
  unfold execSystem
  split
  · exact even_execPriv
  · exact even_getCore fun c _ => even_csrInstr _ _
  · exact even_getCore fun c _ => even_csrInstr _ _
  · exact even_getCore fun c _ => even_csrInstr _ _
  · exact even_csrInstr _ _
  · exact even_csrInstr _ _
  · exact even_csrInstr _ _
  · exact even_pure _

theorem even_exec32 (inst : BitVec 32) : KeepsEven (β := β) (exec32 inst) := by
  unfold exec32
  split
  · exact even_then (even_setGPR _ _) _
  · exact even_getCore fun c _ => even_then (even_setGPR _ _) _
  · exact even_getCore fun c _ => even_jumpTo _ _
  · exact even_getCore fun c _ => even_bind even_assert fun _ => even_jumpTo _ _
  · exact even_execBranch
  · exact even_execLoad
  · exact even_execStore
  · exact even_execImm _ _
  · exact even_execImm _ _
  · exact even_execReg _ _
  · exact even_execReg _ _
  · exact even_execAmo
  · exact even_pure _
  · exact even_execSystem
  · exact even_pure _

omit [SlaveAtomicIOI β] in
theorem even_cAlu (rd : BitVec 5) (b : BitVec 64) (op : ALUOp) (op32 : Bool) :
    KeepsEven (β := β) (cAlu rd b op op32) := even_getCore fun _ _ => even_aluGPR _ _ _ _ _

theorem even_cLoad (base : BitVec 5) (imm : BitVec 64) (n : Nat) (rd : BitVec 5) :
    KeepsEven (β := β) (cLoad base imm n rd) := even_getCore fun _ _ => even_loadGPR _ _ _ _

theorem even_cStore (base : BitVec 5) (imm : BitVec 64) (n : Nat) (rs2 : BitVec 5) :
    KeepsEven (β := β) (cStore base imm n rs2) :=
  even_getCore fun _ _ => even_then (even_memWrite _ _ _) _

omit [SlaveAtomicIOI β] in
theorem even_cJump {imm : BitVec 64} (h : imm % 2 = 0) : KeepsEven (β := β) (cJump imm) :=
  even_then (even_modifyCore fun _ hc => even_add hc h) _

omit [SlaveAtomicIOI β] in
theorem even_execCAlu : KeepsEven (β := β) (execCAlu inst) := by
  refine even_getCore fun c _ => even_ite ?_ (even_ite (even_cAlu _ _ _ _) ?_)
  · exact even_ite (even_cAlu _ _ _ _) (even_pure _)
  · dsimp only
    split
    · exact even_cAlu _ _ _ _
    · exact even_cAlu _ _ _ _
    · exact even_ite (even_pure _) (even_cAlu _ _ _ _)
    · exact even_ite (even_pure _) (even_cAlu _ _ _ _)

omit [SlaveAtomicIOI β] in
theorem even_execCAddi16spLui : KeepsEven (β := β) (execCAddi16spLui inst) := by
  refine even_getCore fun c _ => ?_
  dsimp only
  split
  · exact even_ite (even_then (even_setGPR _ _) _) (even_pure _)
  · exact even_ite (even_then (even_setGPR _ _) _) (even_pure _)

theorem even_execCJrMvEbJalrAdd : KeepsEven (β := β) (execCJrMvEbJalrAdd inst) := by
  refine even_getCore fun c _ => even_ite (even_ite (even_ite ?_ (even_jumpTo _ _)) ?_) ?_
  · exact even_then (even_raiseTrap _ _) _
  · exact even_cAlu _ _ _ _
  · exact even_ite (even_ite (even_pure _) (even_jumpTo _ _)) (even_then (even_setGPR _ _) _)

theorem even_execRvc (inst : BitVec 32) : KeepsEven (β := β) (execRvc inst) := by
  unfold execRvc
  split
  · exact even_getCore fun c _ => even_ite (even_then (even_setGPR _ _) _) (even_pure _)
  · exact even_cLoad _ _ _ _
  · exact even_cLoad _ _ _ _
  · exact even_cStore _ _ _ _
  · exact even_cStore _ _ _ _
  · exact even_ite (even_cAlu _ _ _ _) (even_pure _)
  · exact even_cAlu _ _ _ _
  · exact even_then (even_setGPR _ _) _
  · exact even_execCAddi16spLui
  · exact even_execCAlu
  · exact even_cJump even_immJ
  · exact even_getCore fun c _ => even_ite (even_cJump even_immB) (even_pure _)
  · exact even_getCore fun c _ => even_ite (even_cJump even_immB) (even_pure _)
  · exact even_ite (even_cAlu _ _ _ _) (even_pure _)
  · exact even_cLoad _ _ _ _
  · exact even_cLoad _ _ _ _
  · exact even_execCJrMvEbJalrAdd
  · exact even_cStore _ _ _ _
  · exact even_cStore _ _ _ _
  · exact even_pure _

theorem even_execute (inst : BitVec 32) : KeepsEven (β := β) (execute inst) :=
  even_ite (even_execRvc inst) (even_exec32 inst)

end Instructions

end NextEmu.Simple.EvenJumps
