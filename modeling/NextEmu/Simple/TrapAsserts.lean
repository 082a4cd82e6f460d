import NextEmu.Simple.Delegation
import NextEmu.Simple.Unaborted

/-!
# The assertions of `csrWrite` and `raiseTrap`

What a step may fail of them. `raiseTrap` asserts that the step has not trapped before: an
instruction raises its one trap last, so that it is enough that the code in front of it does
not trap. `Tame` and `Calm` say that of code that may end with a trap and of code that may
not. What remains is a write of `mtvec` and a fetch that faults at its own handler.
-/

namespace NextEmu.Simple.TrapAsserts

open NextEmu.Lib NextEmu.Lib.AbortState NextEmu.Lib.BitField NextEmu.Sdk
open Conformance DataPaths Delegation Legality Outcomes PrivModes Traversal Unaborted

/-- The assertions of `csrWrite` and `raiseTrap`. The one at the end of `preExec` stands behind its
returns. -/
def trapAsserts : List Assertion := [.tvecMode, .needTrapClear, .causeNotOk, .trapVectorFetch]

/-- An exception that `raiseTrap` takes anywhere. -/
def Passing (code : BitVec 63) : Prop := code ≠ Exec.ok ∧ code ≠ Exec.instrPgfault

instance (code : BitVec 63) : Decidable (Passing code) := inferInstanceAs (Decidable (_ ∧ _))

variable {β : Type}

/-- Code that fails none of them. -/
def Mild {ρ : Type} (x : Emu β ρ) : Prop :=
  ∀ s, wp x (fun _ _ => True) (fun e _ => e ∉ trapAsserts) s

/-- Code that fails none in a step that has not trapped. -/
def Tame {ρ : Type} (x : Emu β ρ) : Prop :=
  ∀ s, s.core.needTrap = false → wp x (fun _ _ => True) (fun e _ => e ∉ trapAsserts) s

/-- Code that fails none there, and does not trap itself. -/
def Calm {ρ : Type} (x : Emu β ρ) : Prop :=
  ∀ s, s.core.needTrap = false →
    wp x (fun _ t => t.core.needTrap = false) (fun e _ => e ∉ trapAsserts) s

section Rules

variable {α ρ : Type}

theorem mild_pure (r : ρ) : Mild (β := β) (pure r) := fun _ => trivial

theorem mild_setGPR (rd : BitVec 5) (value : BitVec 64) (flags : ExecFlags) :
    Mild (β := β) (do setGPR rd value; return flags) := fun _ => trivial

theorem Mild.tame {x : Emu β ρ} (h : Mild x) : Tame x := fun s _ => h s

theorem mild_bind {x : Emu β α} {f : α → Emu β ρ} (hx : Mild x) (hf : ∀ a, Mild (f a)) :
    Mild (x >>= f) := by
  intro s
  rw [wp_bind]
  exact wp_mono (hx s) (fun a t _ => hf a t) (fun _ _ he => he)

theorem mild_ite {p : Prop} [Decidable p] {x y : Emu β ρ} (hx : Mild x) (hy : Mild y) :
    Mild (if p then x else y) := by
  split
  · exact hx
  · exact hy

theorem mild_assert {p : Prop} [Decidable p] {a : Assertion} (ha : a ∉ trapAsserts) :
    Mild (β := β) (assertThat p a) := by
  intro s
  rw [wp_assertThat]
  exact ⟨fun _ => trivial, fun _ => ha⟩

theorem tame_bind {x : Emu β α} {f : α → Emu β ρ} (hx : Calm x) (hf : ∀ a, Tame (f a)) :
    Tame (x >>= f) := by
  intro s hn
  rw [wp_bind]
  exact wp_mono (hx s hn) (fun a t ht => hf a t ht) (fun _ _ he => he)

/-- Behind code that may have trapped there must be no other trap. -/
theorem tame_then {x : Emu β α} {f : α → Emu β ρ} (hx : Tame x) (hf : ∀ a, Mild (f a)) :
    Tame (x >>= f) := by
  intro s hn
  rw [wp_bind]
  exact wp_mono (hx s hn) (fun a t _ => hf a t) (fun _ _ he => he)

theorem tame_ite {p : Prop} [Decidable p] {x y : Emu β ρ} (hx : p → Tame x) (hy : ¬ p → Tame y) :
    Tame (if p then x else y) := by
  by_cases h : p
  · rw [if_pos h]
    exact hx h
  · rw [if_neg h]
    exact hy h

theorem calm_getCore : Calm (β := β) getCore := fun _ hn => hn

theorem calm_assert {p : Prop} [Decidable p] {a : Assertion} (ha : a ∉ trapAsserts) :
    Calm (β := β) (assertThat p a) := by
  intro s hn
  rw [wp_assertThat]
  exact ⟨fun _ => hn, fun _ => ha⟩

theorem tame_raiseTrap {cause : Cause} (h : Passing cause.cause) (tval : BitVec 64) :
    Tame (β := β) (raiseTrap cause tval) := by
  intro s hn
  unfold wp
  rw [raiseTrap_run hn h.1 h.2]
  trivial

theorem tame_raise {cause : Cause} (h : Passing cause.cause) (tval : BitVec 64) (r : ρ) :
    Tame (β := β) (do raiseTrap cause tval; return r) :=
  tame_then (tame_raiseTrap h tval) fun _ => mild_pure r

theorem tame_read {f : RV64Core → Emu β ρ} (h : ∀ c, Tame (f c)) :
    Tame (getCore >>= f) := tame_bind calm_getCore h

theorem tame_pure (r : ρ) : Tame (β := β) (pure r) := (mild_pure r).tame

theorem tame_setGPR (rd : BitVec 5) (value : BitVec 64) (flags : ExecFlags) :
    Tame (β := β) (do setGPR rd value; return flags) := (mild_setGPR rd value flags).tame

end Rules

/-! ## Instructions that access no memory -/

section Bare

variable {inst : BitVec 32}

theorem tame_jumpTo (npc : BitVec 64) (link : Option (BitVec 5 × BitVec 64)) :
    Tame (β := β) (jumpTo npc link) := by
  apply tame_ite
  · exact fun _ => tame_raise (by decide) npc retired
  · intro _ s _
    cases link <;> trivial

theorem tame_aluGPR (rd : BitVec 5) (a b : BitVec 64) (op : ALUOp) (op32 : Bool) :
    Tame (β := β) (aluGPR rd a b op op32) := by
  unfold aluGPR aluExec
  cases aluValue a b op op32 with
  | some result => exact (mild_setGPR rd result retired).tame
  | none =>
    intro s _
    show Assertion.aluOp ∉ trapAsserts
    decide

theorem tame_execJalr : Tame (β := β) (execJalr inst) :=
  tame_read fun _ => tame_bind (calm_assert (by decide)) fun _ => tame_jumpTo _ _

theorem tame_execBranch : Tame (β := β) (execBranch inst) := by
  apply tame_read
  intro c
  split
  · exact tame_pure _
  · exact tame_pure _
  · apply tame_ite
    · exact fun _ => tame_raise (by decide) _ _
    · exact fun _ _ _ => trivial

theorem tame_execImm (decoded : Option (ALUOp × BitVec 64)) (op32 : Bool) :
    Tame (β := β) (execImm decoded op32 inst) := by
  cases decoded with
  | none => exact tame_pure _
  | some d => exact tame_read fun _ => tame_aluGPR _ _ _ _ _

theorem tame_execReg (decoded : Option ALUOp) (op32 : Bool) :
    Tame (β := β) (execReg decoded op32 inst) := by
  cases decoded with
  | none => exact tame_pure _
  | some op => exact tame_read fun _ => tame_aluGPR _ _ _ _ _

theorem tame_cAlu (rd : BitVec 5) (b : BitVec 64) (op : ALUOp) (op32 : Bool) :
    Tame (β := β) (cAlu rd b op op32) :=
  tame_read fun _ => tame_aluGPR _ _ _ _ _

theorem tame_cJump (imm : BitVec 64) : Tame (β := β) (cJump imm) := fun _ _ => trivial

theorem tame_execCAddi16spLui : Tame (β := β) (execCAddi16spLui inst) := by
  apply tame_read
  intro c
  dsimp only
  split
  · split
    · exact tame_setGPR _ _ _
    · exact tame_pure _
  · split
    · exact tame_setGPR _ _ _
    · exact tame_pure _

theorem tame_execCAlu : Tame (β := β) (execCAlu inst) := by
  apply tame_read
  intro c
  apply tame_ite
  · intro _
    apply tame_ite
    · exact fun _ => tame_cAlu _ _ _ _
    · exact fun _ => tame_pure _
  intro _
  apply tame_ite
  · exact fun _ => tame_cAlu _ _ _ _
  intro _
  dsimp only
  split
  · exact tame_cAlu _ _ _ _
  · exact tame_cAlu _ _ _ _
  · exact tame_ite (fun _ => tame_pure _) fun _ => tame_cAlu _ _ _ _
  · exact tame_ite (fun _ => tame_pure _) fun _ => tame_cAlu _ _ _ _

theorem tame_execCJrMvEbJalrAdd : Tame (β := β) (execCJrMvEbJalrAdd inst) := by
  apply tame_read
  intro c
  apply tame_ite
  · intro _
    apply tame_ite
    · intro _
      apply tame_ite
      · exact fun _ => tame_raise (by decide) 0 retired
      · exact fun _ => tame_jumpTo _ _
    · exact fun _ => tame_cAlu _ _ _ _
  · intro _
    apply tame_ite
    · intro _
      exact tame_ite (fun _ => tame_pure _) fun _ => tame_jumpTo _ _
    · exact fun _ => tame_setGPR _ _ _

theorem tame_ecall : Tame (β := β) (do ecall; return retired) := by
  have hpass : ∀ p : PrivMode, Passing (BitVec.ofNat 63 (p.level + 8)) := by
    intro p
    cases p <;> decide
  exact tame_then (tame_read fun c => tame_raiseTrap (hpass c.currentPrivMode) 0)
    fun _ => mild_pure retired

theorem tame_mret : Tame (β := β) mret := by
  apply tame_read
  intro c
  exact tame_ite (fun _ => tame_pure _) fun _ _ _ => trivial

theorem tame_sret : Tame (β := β) sret := by
  apply tame_read
  intro c
  apply tame_ite
  · exact fun _ => tame_pure _
  · intro _
    exact tame_ite (fun _ => tame_pure _) fun _ _ _ => trivial

theorem tame_sfenceVma (vaddr asid : BitVec 64) : Tame (β := β) (sfenceVma vaddr asid) := by
  apply tame_read
  intro c
  exact tame_ite (fun _ => tame_pure _) fun _ _ _ => trivial

theorem tame_execPriv : Tame (β := β) (execPriv inst) := by
  unfold execPriv
  dsimp only
  split
  · split
    · split
      · exact tame_ecall
      · exact tame_raise (by decide) 0 retired
      · exact tame_pure _
    · exact tame_pure _
  · split
    · split
      · exact tame_then tame_sret fun _ => mild_pure _
      · exact tame_pure _
      · exact tame_pure _
    · exact tame_pure _
  · split
    · exact tame_then tame_mret fun _ => mild_pure _
    · exact tame_pure _
  · exact tame_read fun _ => tame_then (tame_sfenceVma _ _) fun _ => mild_pure _
  · exact tame_pure _

end Bare

/-! ## The access paths -/

variable [SlaveAtomicIOI β]

/-- A lookup stops at assertions of its own. -/
theorem lookUp_assertion {s : Machine β} {va : BitVec 64} {e : Assertion}
    (h : lookUp s va = .stops e) : e ∉ trapAsserts := by
  unfold lookUp at h
  split at h
  · split at h
    · split at h
      · unfold walkLookup at h
        split at h
        · cases h
          decide
        · cases h
        · cases h
      · cases h
    · cases h
    · cases h
      decide
  · cases h
    decide

/-- A path returns one of its codes, or stops with the lookup. -/
theorem path_ends {ρ : Type} {p : Path β ρ} {code : ρ → Option VAddrFeedback}
    (hp : CodedPath code p) (s : Machine β) :
    wp p.run (fun r _ => ∃ k, code r = some k) (fun e _ => e ∉ trapAsserts) s := by
  cases hd : p.direct s.core with
  | true =>
    obtain ⟨r, t, k, hrun, hk⟩ := hp.bare s
    unfold wp
    rw [Path.run_direct hd, hrun]
    exact ⟨k, hk⟩
  | false =>
    cases hcross : crossesPage p.beginAddr p.size with
    | true =>
      unfold wp
      rw [Path.run_crossing hd hcross]
      exact ⟨_, hp.crossPage⟩
    | false =>
      unfold wp
      rw [Path.run_lookUp hd hcross]
      cases hl : lookUp s p.beginAddr with
      | stops e => exact lookUp_assertion hl
      | absent => exact ⟨_, hp.noEntry⟩
      | found e =>
        dsimp only
        cases hr : p.refuse s.core e with
        | some r => exact hp.refuse _ _ _ hr
        | none =>
          obtain ⟨r, t, k, hrun, hk⟩ := hp.act (e.ppa + p.beginAddr % e.pagesize.bytes)
            (looked s p.beginAddr)
          dsimp only
          rw [hrun]
          exact ⟨k, hk⟩

theorem mild_instFetchPart (va : BitVec 64) (n : Nat) : Mild (β := β) (instFetchPart va n) := by
  intro s
  by_cases heven : va % 2 = 0
  · refine wp_congr (instFetchPart_path heven s) ?_
    exact wp_mono (path_ends fetch_coded s) (fun _ _ _ => trivial) (fun _ _ he => he)
  · unfold wp instFetchPart assertThat
    rw [if_neg heven]
    show Assertion.fetchAlign ∉ trapAsserts
    decide

/-- The fetch makes one of its accesses or both. -/
theorem mild_instFetch (va : BitVec 64) (n : Nat) :
    Mild (β := β) (vaddrInstFetchMMUAPI va n) := by
  apply mild_bind (mild_assert (by decide))
  intro _
  apply mild_ite
  · apply mild_bind (mild_instFetchPart va 2)
    intro low
    apply mild_ite (mild_pure _)
    apply mild_bind (mild_instFetchPart (va + 2) 2)
    exact fun high => mild_ite (mild_pure _) (mild_pure _)
  · exact mild_instFetchPart va n

/-- The data paths are paths too, which leave the core alone. -/
theorem data_ends {a : DataAccess} (h : Callable a) (s : Machine β) :
    wp a.run (fun r t => t.core = s.core ∧ ∃ k, a.code r = some k) (fun e _ => e ∉ trapAsserts)
      s := by
  have hcareful : ∀ {ρ : Type} {ok : ρ → Prop} {x : Emu β ρ}, Careful ok x →
      wp x (fun _ t => t.core = s.core) (fun _ _ => True) s := fun hx =>
    wp_mono (hx s) (fun _ _ ht => ht.1.core) (fun _ _ _ => trivial)
  have hcore : wp a.run (fun _ t => t.core = s.core) (fun _ _ => True) s := by
    cases a with
    | read va n => exact hcareful (silent_read va n)
    | write va n data => exact hcareful (careful_write va n data)
    | loadReserved va n => exact hcareful (silent_loadReserved va n)
    | storeConditional va n data => exact hcareful (careful_storeConditional va n data)
    | amo va n op src => exact hcareful (careful_amo va n op src)
  have hcode := wp_congr (DataAccess.run_path h.sized s) (path_ends (data_coded h) s)
  exact wp_mono (wp_and hcore hcode) (fun _ _ ht => ht) (fun _ _ he => he.2)

/-- Code that accesses the memory and then goes on by the code of the access. -/
theorem tame_access {ρ : Type} {a : DataAccess} (h : Callable a) {f : a.Answer → Emu β ρ}
    (hf : ∀ r k, a.code r = some k → Tame (f r)) : Tame (a.run >>= f) := by
  intro s hn
  rw [wp_bind]
  refine wp_mono (data_ends h s) (fun r t ht => ?_) (fun _ _ he => he)
  obtain ⟨hcore, k, hk⟩ := ht
  exact hf r k hk t (hcore ▸ hn)

/-! ## Instructions that access the memory -/

section Instructions

variable {inst : BitVec 32}

theorem tame_memRead (va : BitVec 64) (n : Nat) : Tame (β := β) (memRead va n) := by
  unfold memRead
  apply tame_ite
  · exact fun _ => tame_raise (by decide) va none
  · intro _
    apply tame_access (a := .read va n) trivial
    rintro ⟨fb, data⟩ k -
    apply tame_ite
    · exact fun _ => (mild_pure _).tame
    · intro hfail
      have hpass := memException_of (by decide : Passing Exec.loadAccFault)
        (by decide : Passing Exec.loadMisalign) (by decide : Passing Exec.loadPgfault) hfail
      apply tame_bind (calm_assert (by decide))
      exact fun _ => tame_raise hpass va none

theorem tame_memWrite (va : BitVec 64) (n : Nat) (src : BitVec 64) :
    Tame (β := β) (memWrite va n src) := by
  unfold memWrite
  apply tame_ite
  · exact fun _ => tame_raise (by decide) va ()
  · intro _
    apply tame_access (a := .write va n (src.setWidth (8 * n))) trivial
    intro fb k _
    apply tame_ite
    · exact fun _ => (mild_pure _).tame
    · intro hfail
      have hpass := memException_of (by decide : Passing Exec.storeAccFault)
        (by decide : Passing Exec.storeMisalign) (by decide : Passing Exec.storePgfault) hfail
      apply tame_bind (calm_assert (by decide))
      exact fun _ => tame_raiseTrap hpass va

theorem tame_memWriteRetired (va : BitVec 64) (n : Nat) (src : BitVec 64) :
    Tame (β := β) (do memWrite va n src; return retired) :=
  tame_then (tame_memWrite va n src) fun _ => mild_pure retired

theorem tame_loadGPR (va : BitVec 64) (n : Nat) (ext : BitVec (8 * n) → BitVec 64)
    (rd : BitVec 5) : Tame (β := β) (loadGPR va n ext rd) := by
  apply tame_then (tame_memRead va n)
  intro r
  cases r with
  | some buf => exact mild_setGPR rd (ext buf) retired
  | none => exact mild_pure retired

theorem tame_execLoad : Tame (β := β) (execLoad inst) := by
  apply tame_read
  intro c
  dsimp only
  split
  case h_8 => exact tame_pure _
  all_goals exact tame_loadGPR _ _ _ _

theorem tame_execStore : Tame (β := β) (execStore inst) := by
  apply tame_read
  intro c
  dsimp only
  split
  case h_5 => exact tame_pure _
  all_goals exact tame_memWriteRetired _ _ _

/-- The exceptions of a failed atomic access. -/
theorem excFeedback_passing {exc : BitVec 63} {k : VAddrFeedback}
    (h : DataAccess.excFeedback exc = some k) : exc ≠ Exec.instrPgfault := by
  rintro rfl
  cases h

omit [SlaveAtomicIOI β] in
/-- The end of an atomic instruction behind its access. -/
theorem tame_amoEnd {exc : BitVec 63} {k : VAddrFeedback}
    (h : DataAccess.excFeedback exc = some k) (addr : BitVec 64) (rd : BitVec 5)
    (result : BitVec 64) : Tame (β := β) (amoEnd exc addr rd result) := by
  apply tame_ite
  · exact fun _ => (mild_setGPR rd result retired).tame
  · exact fun hfail => tame_raise ⟨hfail, excFeedback_passing h⟩ addr retired

theorem tame_execAmo : Tame (β := β) (execAmo inst) := by
  apply tame_ite
  · exact fun _ => tame_pure _
  intro hf3
  have hsize : 1 <<< (RVInst.funct3 inst).toNat = 4 ∨ 1 <<< (RVInst.funct3 inst).toNat = 8 := by
    generalize RVInst.funct3 inst = f at hf3 ⊢
    revert f
    decide
  apply tame_read
  intro c
  split
  · exact tame_pure _
  · apply tame_ite
    · exact fun _ => tame_pure _
    · exact fun _ => tame_access (a := .loadReserved _ _) trivial
        fun _ _ hk => tame_amoEnd hk _ _ _
  · exact tame_access (a := .storeConditional _ _ _) trivial fun _ _ hk => tame_amoEnd hk _ _ _
  · rename_i op hlr hsc _
    exact tame_access (a := .amo _ _ op _) ⟨hsize, hlr, hsc⟩ fun _ _ hk => tame_amoEnd hk _ _ _

theorem tame_cLoad (base : BitVec 5) (imm : BitVec 64) (n : Nat) (rd : BitVec 5) :
    Tame (β := β) (cLoad base imm n rd) := tame_read fun _ => tame_loadGPR _ _ _ _

theorem tame_cStore (base : BitVec 5) (imm : BitVec 64) (n : Nat) (rs2 : BitVec 5) :
    Tame (β := β) (cStore base imm n rs2) := tame_read fun _ => tame_memWriteRetired _ _ _

theorem tame_exec32 (hop : OpCode.ofBits (RVInst.opcode inst) ≠ some .system) :
    Tame (β := β) (exec32 inst) := by
  unfold exec32
  split
  · exact tame_setGPR _ _ _
  · exact tame_read fun _ => tame_setGPR _ _ _
  · exact tame_read fun _ => tame_jumpTo _ _
  · exact tame_execJalr
  · exact tame_execBranch
  · exact tame_execLoad
  · exact tame_execStore
  · exact tame_execImm _ _
  · exact tame_execImm _ _
  · exact tame_execReg _ _
  · exact tame_execReg _ _
  · exact tame_execAmo
  · exact tame_pure _
  · rename_i h
    exact absurd h hop
  · exact tame_pure _

theorem tame_execRvc (inst : BitVec 32) : Tame (β := β) (execRvc inst) := by
  unfold execRvc
  split
  · exact tame_read fun _ => tame_ite (fun _ => tame_setGPR _ _ _) fun _ => tame_pure _
  · exact tame_cLoad _ _ _ _
  · exact tame_cLoad _ _ _ _
  · exact tame_cStore _ _ _ _
  · exact tame_cStore _ _ _ _
  · exact tame_ite (fun _ => tame_cAlu _ _ _ _) fun _ => tame_pure _
  · exact tame_cAlu _ _ _ _
  · exact tame_setGPR _ _ _
  · exact tame_execCAddi16spLui
  · exact tame_execCAlu
  · exact tame_cJump _
  · exact tame_read fun _ => tame_ite (fun _ => tame_cJump _) fun _ => tame_pure _
  · exact tame_read fun _ => tame_ite (fun _ => tame_cJump _) fun _ => tame_pure _
  · exact tame_ite (fun _ => tame_cAlu _ _ _ _) fun _ => tame_pure _
  · exact tame_cLoad _ _ _ _
  · exact tame_cLoad _ _ _ _
  · exact tame_execCJrMvEbJalrAdd
  · exact tame_cStore _ _ _ _
  · exact tame_cStore _ _ _ _
  · exact tame_pure _

end Instructions

/-! ## The CSR instructions -/

/-- A written trap vector with a mode that the core does not have. -/
def Reserved (written : Option (BitVec 64)) : Prop :=
  ∃ data, written = some data ∧ 1 < TrapVector.mode data

section Registers

variable {inst : BitVec 32}

theorem ofNumber_mtvec {n : BitVec 12} (h : CSRAddr.ofNumber n = some .mtvec) : n = 0x305 := by
  unfold CSRAddr.ofNumber at h
  split at h <;> first | rfl | cases h

/-- `csrWrite` has the one assertion. -/
theorem csrWrite_stops {c : RV64Core} {data : BitVec 64} {a : Option CSRAddr} {e : Assertion}
    (h : c.csrWrite data a = .error e) :
    e = .tvecMode ∧ a = some .mtvec ∧ 1 < TrapVector.mode data := by
  unfold RV64Core.csrWrite at h
  split at h
  case h_6 =>
    split at h
    · cases h
    · rename_i hmode
      cases h
      exact ⟨rfl, rfl, BitVec.not_le.mp hmode⟩
  case h_23 =>
    split at h
    · cases h
    · cases h
  all_goals cases h

omit [SlaveAtomicIOI β] in
theorem csrInstr_ends {write : Bool} {newValue : BitVec 64 → Option (BitVec 64)} {s : Machine β}
    (hop : OpCode.ofBits (RVInst.opcode inst) = some .system)
    (hw : ∀ v data, newValue v = some data → write = true)
    (hnew : ∀ v, s.core.csrRead (CSRAddr.ofNumber (field inst 20 12)) = some v →
      csrWritten s.core inst = newValue v) :
    wp (csrInstr inst write newValue) (fun _ _ => True)
      (fun e _ => e = .tvecMode ∧ Reserved (dataWritten 0x305 s.core inst)) s := by
  unfold csrInstr
  simp only [wp_bind, wp_getCore, wp_ite, wp_pure]
  refine ⟨fun _ => trivial, fun hperm => ?_⟩
  cases hread : s.core.csrRead (CSRAddr.ofNumber (field inst 20 12)) with
  | none => trivial
  | some csrResult =>
    cases hval : newValue csrResult with
    | none =>
      simp only [hval]
      trivial
    | some data =>
      simp only [hval]
      rcases hc : s.core.csrWrite data (CSRAddr.ofNumber (field inst 20 12)) with e | _ | c'
      · obtain ⟨rfl, hnumber, hmode⟩ := csrWrite_stops hc
        have hn := ofNumber_mtvec hnumber
        have hallowed : s.core.csrOpPermissionCheck 0x305 true = true := by
          simpa [hw _ _ hval, hn] using hperm
        refine ⟨rfl, data, ?_, hmode⟩
        unfold dataWritten
        rw [if_pos ⟨hop, hn, hallowed⟩]
        exact (hnew _ hread).trans hval
      · trivial
      · trivial

/-- What the code of an instruction stops at. -/
theorem execute_ends (inst : BitVec 32) {s : Machine β} (hn : s.core.needTrap = false) :
    wp (execute inst) (fun _ _ => True)
      (fun e _ => e ∈ trapAsserts → e = .tvecMode ∧ Reserved (dataWritten 0x305 s.core inst))
      s := by
  have htame : ∀ {x : Emu β ExecFlags}, Tame x → wp x (fun _ _ => True)
      (fun e _ => e ∈ trapAsserts → e = .tvecMode ∧ Reserved (dataWritten 0x305 s.core inst)) s :=
    fun hx => wp_mono (hx s hn) (fun _ _ _ => trivial) (fun _ _ he hmem => absurd hmem he)
  unfold execute
  rw [wp_ite]
  constructor
  · exact fun _ => htame (tame_execRvc inst)
  intro _
  by_cases hop : OpCode.ofBits (RVInst.opcode inst) = some .system
  · rw [exec32_system hop]
    by_cases hf3 : RVInst.funct3 inst = 0
    · have hpriv : execSystem (β := β) inst = execPriv inst := by
        unfold execSystem
        rw [hf3]
        rfl
      rw [hpriv]
      exact htame tame_execPriv
    · rcases execSystem_csr hf3 s with ⟨-, hill⟩ | ⟨write, newValue, hw, hnew, hcsr⟩
      · exact wp_congr (y := pure instrIllegal) hill trivial
      · exact wp_congr hcsr (wp_mono (csrInstr_ends hop hw hnew) (fun _ _ _ => trivial)
          (fun _ _ he _ => he))
  · exact htame (tame_exec32 hop)

end Registers

end NextEmu.Simple.TrapAsserts
