import NextEmu.Simple.Outcomes

/-!
# What holds across a step because its primitives keep it

A relation between machines that is reflexive and transitive, that a change of the core and a use
of the bus respect, any `sfence.vma`, a translation and a trap, holds between the start of an
instruction and its end, and another one where it aborts. `Traversed` asks for no more than the
instructions do: they never take back `need_trap`, and four of their assertions never fail. `Kept`
asks for any change of the core, and goes on to the end of a step. The functions come in the order
of their modules.
-/

namespace NextEmu.Simple.Traversal

open NextEmu.Lib.AbortState NextEmu.Lib.BitField NextEmu.Sdk
open Outcomes

variable {β : Type}

/-- The event notes the start of a translation. -/
def isTranslate : Event β → Bool
  | .translate .. => true
  | _ => false

/-- The event notes a call of `raiseTrap`. -/
def isTrap : Event β → Bool
  | .trap .. => true
  | _ => false

/-- The assertions that hold wherever a step comes to them. -/
def firmAsserts : List Assertion := [.fetchFeedback, .memFeedback, .jalrTarget, .aluOp]

variable [SlaveAtomicIOI β]

/-- `R` is kept by the primitives of the instructions, and `E` by the aborts. -/
structure Traversed (R : Machine β → Machine β → Prop)
    (E : Assertion → Machine β → Machine β → Prop) : Prop where
  refl : ∀ s, R s s
  trans : ∀ s t u, R s t → R t u → R s u
  stop : ∀ e s t u, R s t → E e t u → E e s u
  core : ∀ s c, c.needTrap = s.core.needTrap ∨ c.needTrap = true → R s { s with core := c }
  event : ∀ s b e, isTranslate e = false → isTrap e = false →
    R s { s with bus := b, trace := e :: s.trace }
  flush : ∀ s vaddr asid, R s { s with mmu := s.mmu.flush vaddr asid }
  translate : ∀ va, Relates R E (getTLBEntry va)
  raise : ∀ cause tval, Relates R E (raiseTrap cause tval)
  abort : ∀ a s, a ≠ .duplicateMatch ∧ a ≠ .statusBlank ∧ a ∉ firmAsserts → E a s s

/-- `R` is kept by the primitives, and `P` holds at an abort of any but the lookup loop. -/
structure Kept (R : Machine β → Machine β → Prop) (P : Assertion → Machine β → Prop) : Prop where
  refl : ∀ s, R s s
  trans : ∀ s t u, R s t → R t u → R s u
  core : ∀ s c, R s { s with core := c }
  event : ∀ s b e, isTranslate e = false → R s { s with bus := b, trace := e :: s.trace }
  flush : ∀ s vaddr asid, R s { s with mmu := s.mmu.flush vaddr asid }
  translate : ∀ va, Tracks R P (getTLBEntry va)
  abort : ∀ a s, a ≠ .duplicateMatch → P a s

/-- The same for the code between the start and the end of a step, where `P` may also leave out
the assertion at the end. -/
structure KeptWithin (R : Machine β → Machine β → Prop) (P : Assertion → Machine β → Prop) :
    Prop where
  refl : ∀ s, R s s
  trans : ∀ s t u, R s t → R t u → R s u
  core : ∀ s c, R s { s with core := c }
  event : ∀ s b e, isTranslate e = false → R s { s with bus := b, trace := e :: s.trace }
  flush : ∀ s vaddr asid, R s { s with mmu := s.mmu.flush vaddr asid }
  translate : ∀ va, Tracks R P (getTLBEntry va)
  abort : ∀ a s, a ≠ .duplicateMatch ∧ a ≠ .statusBlank → P a s

/-! ## The assertions of the instructions -/

section Assertions

/-- A write of a CSR fails no other assertion than that of `mtvec`. -/
theorem csrWrite_abort {c : RV64Core} {data : BitVec 64} {a : Option CSRAddr} {e : Assertion}
    (h : c.csrWrite data a = .error e) : e = .tvecMode := by
  unfold RV64Core.csrWrite at h
  split at h
  all_goals
    first
    | cases h
    | (split at h <;> cases h <;> rfl)

/-- What is true of the exceptions of a failed access. -/
theorem memException_of {Q : BitVec 63 → Prop} {accFault misalign pgfault : BitVec 63}
    (hacc : Q accFault) (hmis : Q misalign) (hpage : Q pgfault) {fb : VAddrFeedback}
    (h : fb ≠ .accessOk) : Q (fb.memException accFault misalign pgfault) := by
  cases fb with
  | accessOk => exact absurd rfl h
  | accessFault => exact hacc
  | misAlign => exact hmis
  | pageFault => exact hpage

/-- `alu_exec` has a value for every operation. -/
theorem aluValue_some (a b : BitVec 64) {op : ALUOp} (h : op ≠ .nop) (op32 : Bool) :
    ∃ v, aluValue a b op op32 = some v := by
  have hswitch : ∀ (a b : BitVec 64) (op32 : Bool), ∃ v, aluSwitch a b op op32 = some v := by
    intro a b op32
    unfold aluSwitch
    dsimp only
    cases op with
    | nop => exact absurd rfl h
    | div | divu | rem | remu =>
      dsimp only
      repeat' split
      all_goals exact ⟨_, rfl⟩
    | _ => exact ⟨_, rfl⟩
  unfold aluValue
  cases op32 with
  | true =>
    obtain ⟨v, hv⟩ := hswitch (int32 a) (int32 b) true
    exact ⟨int32 v, congrArg (Option.map int32) hv⟩
  | false => exact hswitch a b false

variable {inst : BitVec 32}

/-! The decoders give operations. -/

theorem shift_op (p : Prop) [Decidable p] : (if p then ALUOp.sra else .srl) ≠ .nop := by
  split <;> decide

theorem decodeOpImm_op {op : ALUOp} {imm : BitVec 64} (h : decodeOpImm inst = some (op, imm)) :
    op ≠ .nop := by
  unfold decodeOpImm at h
  dsimp only at h
  split at h
  case h_7 =>
    split at h <;> cases h
    decide
  case h_8 =>
    split at h <;> cases h
    exact shift_op _
  all_goals
    cases h
    decide

theorem decodeOpImm32_op {op : ALUOp} {imm : BitVec 64}
    (h : decodeOpImm32 inst = some (op, imm)) : op ≠ .nop := by
  unfold decodeOpImm32 at h
  dsimp only at h
  split at h
  case h_3 =>
    split at h <;> cases h
    exact shift_op _
  case h_4 => cases h
  all_goals
    first
    | (cases h; decide)
    | (split at h <;> cases h; decide)

theorem decodeOp_op {op : ALUOp} (h : decodeOp inst = some op) : op ≠ .nop := by
  unfold decodeOp at h
  split at h <;> cases h <;> decide

theorem decodeOp32_op {op : ALUOp} (h : decodeOp32 inst = some op) : op ≠ .nop := by
  unfold decodeOp32 at h
  split at h <;> cases h <;> decide

end Assertions

namespace Traversed

variable {R : Machine β → Machine β → Prop} {E : Assertion → Machine β → Machine β → Prop}
variable {α ρ : Type}

/-! ## The primitives -/

section Primitives

variable (k : Traversed R E)
include k

theorem pure (a : α) : Relates R E (pure a : Emu β α) := Relates.pure k.refl a

theorem bind {x : Emu β α} {f : α → Emu β ρ} (hx : Relates R E x)
    (hf : ∀ a, Relates R E (f a)) : Relates R E (x >>= f) := Relates.bind k.trans k.stop hx hf

theorem throw {a : Assertion} (ha : a ≠ .duplicateMatch ∧ a ≠ .statusBlank ∧ a ∉ firmAsserts) :
    Relates R E (throw a : Emu β α) := Relates.throw fun s => k.abort a s ha

theorem getCore : Relates R E Simple.getCore := fun s => k.refl s

theorem modifyCore {f : RV64Core → RV64Core}
    (hf : ∀ c, (f c).needTrap = c.needTrap ∨ (f c).needTrap = true) :
    Relates R E (Simple.modifyCore f) :=
  fun s => k.core s (f s.core) (hf s.core)

theorem setGPR (rd : BitVec 5) (value : BitVec 64) : Relates R E (Simple.setGPR rd value) :=
  k.modifyCore fun c => .inl (setGPR_needTrap c rd value)

theorem emit {e : Event β} (he : isTranslate e = false) (ht : isTrap e = false) :
    Relates R E (Simple.emit e) := fun s => k.event s s.bus e he ht

theorem assertThat {p : Prop} [Decidable p] {a : Assertion}
    (ha : a ≠ .duplicateMatch ∧ a ≠ .statusBlank ∧ a ∉ firmAsserts) :
    Relates R E (Simple.assertThat p a : Emu β Unit) := Relates.ite (k.pure ()) (k.throw ha)

/-- An assertion that holds. -/
theorem holds {p : Prop} [Decidable p] {a : Assertion} (h : p) :
    Relates R E (Simple.assertThat p a : Emu β Unit) :=
  Relates.ite_of (fun _ => k.pure ()) fun hn => absurd h hn

theorem doLoad (a : Addr) (n : Nat) : Relates R E (Simple.doLoad a n) :=
  fun s => k.event s _ _ rfl rfl

theorem doStore (a : Addr) (n : Nat) (data : BitVec (8 * n)) :
    Relates R E (Simple.doStore a n data) := fun s => k.event s _ _ rfl rfl

theorem doReserve (a : Addr) (n : Nat) : Relates R E (Simple.doReserve a n) :=
  fun s => k.event s _ _ rfl rfl

theorem doCheck (a : Addr) (n : Nat) : Relates R E (Simple.doCheck a n) :=
  fun s => k.event s _ _ rfl rfl

end Primitives

/-! ## The access paths -/

section Paths

variable (k : Traversed R E)
include k

theorem pagedAccess {va : BitVec 64} {n : Nat} {crossPage noEntry : ρ}
    {refuse : RV64Core → TLBEntry → Option ρ} {act : Addr → Emu β ρ}
    (hact : ∀ pa, Relates R E (act pa)) :
    Relates R E (Simple.pagedAccess va n crossPage noEntry refuse act) := by
  refine Relates.ite (k.pure _) (k.bind (k.translate va) fun found => ?_)
  cases found with
  | none => exact k.pure _
  | some e =>
    refine k.bind k.getCore fun c => ?_
    cases refuse c e with
    | some code => exact k.pure _
    | none => exact k.bind (k.assertThat (by decide)) fun _ => hact _

theorem physRead (pa : Addr) (n : Nat) : Relates R E (Simple.physRead pa n) :=
  k.bind (k.doLoad pa n) fun _ => k.pure _

theorem physWrite {ok fault : ρ} (pa : Addr) (n : Nat) (data : BitVec (8 * n)) :
    Relates R E (Simple.physWrite ok fault pa n data) :=
  k.bind (k.doStore pa n data) fun _ => k.pure _

theorem read (va : BitVec 64) (n : Nat) : Relates R E (vaddrReadBufferMMUAPI va n) :=
  k.bind k.getCore fun _ =>
    Relates.ite (k.physRead va n) (k.pagedAccess fun pa => k.physRead pa n)

theorem instFetchPart (va : BitVec 64) (n : Nat) : Relates R E (Simple.instFetchPart va n) :=
  k.bind (k.assertThat (by decide)) fun _ => k.bind k.getCore fun _ =>
    Relates.ite (k.physRead va n) (k.pagedAccess fun pa => k.physRead pa n)

theorem instFetch (va : BitVec 64) (n : Nat) : Relates R E (vaddrInstFetchMMUAPI va n) := by
  refine k.bind (k.assertThat (by decide)) fun _ => Relates.ite ?_ (k.instFetchPart va n)
  refine k.bind (k.instFetchPart va 2) fun low => Relates.ite (k.pure _) ?_
  exact k.bind (k.instFetchPart (va + 2) 2) fun high => Relates.ite (k.pure _) (k.pure _)

theorem write (va : BitVec 64) (n : Nat) (data : BitVec (8 * n)) :
    Relates R E (vaddrWriteBufferMMUAPI va n data) :=
  k.bind k.getCore fun _ =>
    Relates.ite (k.physWrite va n data) (k.pagedAccess fun pa => k.physWrite pa n data)

theorem loadReserved (va : BitVec 64) (n : Nat) : Relates R E (vaddrLoadReserved va n) := by
  have hphys : ∀ pa, Relates R E (physLoadReserved pa n : Emu β _) := fun pa =>
    k.bind (k.doReserve pa n) fun _ => k.bind (k.doLoad pa n) fun _ => k.pure _
  exact k.bind k.getCore fun _ => Relates.ite (hphys va) (k.pagedAccess hphys)

theorem storeConditional (va : BitVec 64) (n : Nat) (data : BitVec (8 * n)) :
    Relates R E (vaddrStoreConditional va n data) := by
  have hphys : ∀ fault pa, Relates R E (physStoreConditional fault pa n data : Emu β _) :=
    fun fault pa => k.bind (k.doCheck pa n) fun _ =>
      Relates.ite (k.pure _) (k.bind (k.doStore pa n data) fun _ => k.pure _)
  exact k.bind k.getCore fun _ => Relates.ite (hphys _ va) (k.pagedAccess (hphys _))

theorem amo (va : BitVec 64) (n : Nat) (op : AMOFunct) (src : BitVec 64) :
    Relates R E (vaddrAtomicMemOperation va n op src) := by
  have hload : ∀ pa, Relates R E (amoLoad pa n : Emu β _) := fun pa =>
    Relates.ite (k.bind (k.doLoad pa 4) fun _ => k.pure _)
      (k.bind (k.doLoad pa 8) fun _ => k.pure _)
  have hop : ∀ pa, Relates R E (paAmoOp pa n op src : Emu β _) := by
    intro pa
    refine k.bind (hload pa) fun r => Relates.ite (k.pure _) ?_
    cases amoResult op src r.2 with
    | none => exact k.throw (by decide)
    | some toWrite => exact k.bind (k.doStore pa n _) fun _ => k.pure _
  have hphys : ∀ pa, Relates R E (physAmo pa n op src : Emu β _) := fun pa =>
    k.bind (hop pa) fun _ => k.pure _
  exact k.bind (k.assertThat (by decide)) fun _ => k.bind k.getCore fun _ =>
    Relates.ite (hphys va) (k.pagedAccess hphys)

end Paths

/-! ## Traps, memory and jumps -/

section Common

variable (k : Traversed R E)
include k

theorem memRead (va : BitVec 64) (n : Nat) : Relates R E (Simple.memRead va n) := by
  refine Relates.ite (k.bind (k.raise _ _) fun _ => k.pure _) ?_
  refine k.bind (k.read va n) fun r => Relates.ite_of (fun _ => k.pure _) fun hfail => ?_
  have hcode : r.1.memException Exec.loadAccFault Exec.loadMisalign Exec.loadPgfault ≠ Exec.ok :=
    memException_of (Q := (· ≠ Exec.ok)) (by decide) (by decide) (by decide) hfail
  exact k.bind (k.holds hcode) fun _ => k.bind (k.raise _ _) fun _ => k.pure _

theorem memWrite (va : BitVec 64) (n : Nat) (src : BitVec 64) :
    Relates R E (Simple.memWrite va n src) := by
  refine Relates.ite (k.bind (k.raise _ _) fun _ => k.pure _) ?_
  refine k.bind (k.write va n _) fun r => Relates.ite_of (fun _ => k.pure _) fun hfail => ?_
  have hcode : r.memException Exec.storeAccFault Exec.storeMisalign Exec.storePgfault ≠ Exec.ok :=
    memException_of (Q := (· ≠ Exec.ok)) (by decide) (by decide) (by decide) hfail
  exact k.bind (k.holds hcode) fun _ => k.raise _ _

theorem jumpTo (npc : BitVec 64) (link : Option (BitVec 5 × BitVec 64)) :
    Relates R E (Simple.jumpTo npc link) := by
  refine Relates.ite (k.bind (k.raise _ _) fun _ => k.pure _) ?_
  cases link with
  | none => exact k.bind (k.modifyCore fun _ => .inl rfl) fun _ => k.pure _
  | some l =>
    refine k.bind (k.setGPR _ _) fun _ => ?_
    exact k.bind (k.modifyCore fun _ => .inl rfl) fun _ => k.pure _

theorem loadGPR (va : BitVec 64) (n : Nat) (ext : BitVec (8 * n) → BitVec 64) (rd : BitVec 5) :
    Relates R E (Simple.loadGPR va n ext rd) := by
  refine k.bind (k.memRead va n) fun r => ?_
  cases r with
  | some buf => exact k.bind (k.setGPR _ _) fun _ => k.pure _
  | none => exact k.bind (k.pure ()) fun _ => k.pure _

theorem write_retired (va : BitVec 64) (n : Nat) (src : BitVec 64) :
    Relates R E (do Simple.memWrite va n src; return retired) :=
  k.bind (k.memWrite va n src) fun _ => k.pure _

theorem setGPR_retired (rd : BitVec 5) (value : BitVec 64) :
    Relates R E (do Simple.setGPR rd value; return retired) :=
  k.bind (k.setGPR rd value) fun _ => k.pure _

theorem aluGPR (rd : BitVec 5) (a b : BitVec 64) {op : ALUOp} (h : op ≠ .nop) (op32 : Bool) :
    Relates R E (Simple.aluGPR rd a b op op32 : Emu β ExecFlags) := by
  obtain ⟨v, hv⟩ := aluValue_some a b h op32
  refine k.bind ?_ fun _ => k.setGPR_retired _ _
  unfold aluExec
  rw [hv]
  exact k.pure v

theorem amoEnd (exc : BitVec 63) (addr : BitVec 64) (rd : BitVec 5) (result : BitVec 64) :
    Relates R E (Simple.amoEnd exc addr rd result : Emu β ExecFlags) := by
  unfold Simple.amoEnd
  dsimp only
  refine Relates.ite ?_ ?_
  · exact k.setGPR_retired _ _
  · exact k.bind (k.raise _ _) fun _ => k.pure _

end Common

/-! ## The 32-bit instructions -/

section Exec

variable (k : Traversed R E) (inst : BitVec 32)
include k

theorem execBranch : Relates R E (Simple.execBranch inst : Emu β ExecFlags) := by
  refine k.bind k.getCore fun c => ?_
  split
  · exact k.pure _
  · exact k.pure _
  · dsimp only
    exact Relates.ite (k.bind (k.raise _ _) fun _ => k.pure _)
      (k.bind (k.modifyCore fun _ => .inl rfl) fun _ => k.pure _)

theorem execLoad : Relates R E (Simple.execLoad inst : Emu β ExecFlags) := by
  refine k.bind k.getCore fun c => ?_
  dsimp only
  split
  case h_8 => exact k.pure _
  all_goals exact k.loadGPR _ _ _ _

theorem execStore : Relates R E (Simple.execStore inst : Emu β ExecFlags) := by
  refine k.bind k.getCore fun c => ?_
  dsimp only
  split
  case h_5 => exact k.pure _
  all_goals exact k.write_retired _ _ _

theorem execImm {decoded : Option (ALUOp × BitVec 64)}
    (h : ∀ op imm, decoded = some (op, imm) → op ≠ .nop) (op32 : Bool) :
    Relates R E (Simple.execImm decoded op32 inst : Emu β ExecFlags) := by
  cases decoded with
  | none => exact k.pure _
  | some d => exact k.bind k.getCore fun c => k.aluGPR _ _ _ (h d.1 d.2 rfl) _

theorem execReg {decoded : Option ALUOp} (h : ∀ op, decoded = some op → op ≠ .nop)
    (op32 : Bool) : Relates R E (Simple.execReg decoded op32 inst : Emu β ExecFlags) := by
  cases decoded with
  | none => exact k.pure _
  | some op => exact k.bind k.getCore fun c => k.aluGPR _ _ _ (h op rfl) _

theorem execAmo : Relates R E (Simple.execAmo inst : Emu β ExecFlags) := by
  refine Relates.ite (k.pure _) (k.bind k.getCore fun c => ?_)
  split
  · exact k.pure _
  · exact Relates.ite (k.pure _) (k.bind (k.loadReserved _ _) fun _ => k.amoEnd _ _ _ _)
  · exact k.bind (k.storeConditional _ _ _) fun _ => k.amoEnd _ _ _ _
  · exact k.bind (k.amo _ _ _ _) fun _ => k.amoEnd _ _ _ _

theorem sfenceVma (va asid : BitVec 64) : Relates R E (Simple.sfenceVma va asid : Emu β Bool) :=
  k.bind k.getCore fun _ => Relates.ite (k.pure _)
    (k.bind (fun s => k.flush s va asid) fun _ => k.pure _)

theorem execPriv : Relates R E (Simple.execPriv inst : Emu β ExecFlags) := by
  have hecall : Relates R E (ecall : Emu β Unit) := k.bind k.getCore fun _ => k.raise _ _
  have hebreak : Relates R E (ebreak : Emu β Unit) := k.raise _ _
  have hmret : Relates R E (mret : Emu β Bool) := k.bind k.getCore fun _ =>
    Relates.ite (k.pure _) (k.bind (k.modifyCore fun _ => .inr rfl) fun _ => k.pure _)
  have hsret : Relates R E (sret : Emu β Bool) := k.bind k.getCore fun _ =>
    Relates.ite (k.pure _) (Relates.ite (k.pure _)
      (k.bind (k.modifyCore fun _ => .inr rfl) fun _ => k.pure _))
  unfold Simple.execPriv
  dsimp only
  split
  · split
    · split
      · exact k.bind hecall fun _ => k.pure _
      · exact k.bind hebreak fun _ => k.pure _
      · exact k.pure _
    · exact k.pure _
  · split
    · split
      · exact k.bind hsret fun _ => k.pure _
      · exact k.pure _
      · exact k.pure _
    · exact k.pure _
  · exact Relates.ite (k.bind hmret fun _ => k.pure _) (k.pure _)
  · exact k.bind k.getCore fun c => k.bind (k.sfenceVma _ _) fun _ => k.pure _
  · exact k.pure _

theorem csrInstr (write : Bool) (newValue : BitVec 64 → Option (BitVec 64)) :
    Relates R E (Simple.csrInstr inst write newValue : Emu β ExecFlags) := by
  -- the core that the instruction has read is that of the state, so that the write is one to it
  intro s
  unfold Simple.csrInstr
  rw [wp_bind, wp_getCore, wp_ite]
  refine ⟨fun _ => k.refl s, fun _ => ?_⟩
  cases s.core.csrRead (CSRAddr.ofNumber (field inst 20 12)) with
  | none => exact k.refl s
  | some csrResult =>
    dsimp only
    cases newValue csrResult with
    | none => exact k.setGPR_retired _ _ s
    | some data =>
      dsimp only
      rcases hw : s.core.csrWrite data (CSRAddr.ofNumber (field inst 20 12)) with e | _ | c'
      · cases csrWrite_abort hw
        exact k.throw (by decide) s
      · exact k.refl s
      · have hcore := k.core s c' (.inl (csrWrite_unwritten hw).needTrap)
        dsimp only
        rw [wp_bind, wp_modifyCore]
        exact wp_mono (k.setGPR_retired _ _ _) (fun _ _ ht => k.trans _ _ _ hcore ht)
          (fun _ _ he => k.stop _ _ _ _ hcore he)

theorem execSystem : Relates R E (Simple.execSystem inst : Emu β ExecFlags) := by
  unfold Simple.execSystem
  split
  · exact k.execPriv inst
  · exact k.bind k.getCore fun c => k.csrInstr inst _ _
  · exact k.bind k.getCore fun c => k.csrInstr inst _ _
  · exact k.bind k.getCore fun c => k.csrInstr inst _ _
  · exact k.csrInstr inst _ _
  · exact k.csrInstr inst _ _
  · exact k.csrInstr inst _ _
  · exact k.pure _

theorem exec32 : Relates R E (Simple.exec32 inst : Emu β ExecFlags) := by
  unfold Simple.exec32
  split
  · exact k.setGPR_retired _ _
  · exact k.bind k.getCore fun c => k.setGPR_retired _ _
  · exact k.bind k.getCore fun c => k.jumpTo _ _
  · refine k.bind k.getCore fun c => k.bind (k.holds ?_) fun _ => k.jumpTo _ _
    exact congrArg (_ + ·) (clear_bit0 (by decide) _).symm
  · exact k.execBranch inst
  · exact k.execLoad inst
  · exact k.execStore inst
  · exact k.execImm inst (fun _ _ => decodeOpImm_op) _
  · exact k.execImm inst (fun _ _ => decodeOpImm32_op) _
  · exact k.execReg inst (fun _ => decodeOp_op) _
  · exact k.execReg inst (fun _ => decodeOp32_op) _
  · exact k.execAmo inst
  · exact k.pure _
  · exact k.execSystem inst
  · exact k.pure _

end Exec

/-! ## The compressed instructions -/

section Compressed

variable (k : Traversed R E)
include k

theorem cAlu (rd : BitVec 5) (b : BitVec 64) {op : ALUOp} (h : op ≠ .nop) (op32 : Bool) :
    Relates R E (Simple.cAlu rd b op op32 : Emu β ExecFlags) :=
  k.bind k.getCore fun _ => k.aluGPR _ _ _ h _

theorem cLoad (base : BitVec 5) (imm : BitVec 64) (n : Nat) (rd : BitVec 5) :
    Relates R E (Simple.cLoad base imm n rd : Emu β ExecFlags) :=
  k.bind k.getCore fun _ => k.loadGPR _ _ _ _

theorem cStore (base : BitVec 5) (imm : BitVec 64) (n : Nat) (rs2 : BitVec 5) :
    Relates R E (Simple.cStore base imm n rs2 : Emu β ExecFlags) :=
  k.bind k.getCore fun _ => k.write_retired _ _ _

theorem cJump (imm : BitVec 64) : Relates R E (Simple.cJump imm : Emu β ExecFlags) :=
  k.bind (k.modifyCore fun _ => .inl rfl) fun _ => k.pure _

theorem execCAlu (inst : BitVec 32) : Relates R E (Simple.execCAlu inst : Emu β ExecFlags) := by
  refine k.bind k.getCore fun c => Relates.ite ?_ (Relates.ite (k.cAlu _ _ (by decide) _) ?_)
  · exact Relates.ite (k.cAlu _ _ (shift_op _) _) (k.pure _)
  · dsimp only
    split
    · exact k.cAlu _ _ (by decide) _
    · exact k.cAlu _ _ (by split <;> decide) _
    · exact Relates.ite (k.pure _) (k.cAlu _ _ (by decide) _)
    · exact Relates.ite (k.pure _) (k.cAlu _ _ (by decide) _)

theorem execCAddi16spLui (inst : BitVec 32) :
    Relates R E (Simple.execCAddi16spLui inst : Emu β ExecFlags) := by
  refine k.bind k.getCore fun c => ?_
  dsimp only
  split
  · exact Relates.ite (k.setGPR_retired _ _) (k.pure _)
  · exact Relates.ite (k.setGPR_retired _ _) (k.pure _)

theorem execCJrMvEbJalrAdd (inst : BitVec 32) :
    Relates R E (Simple.execCJrMvEbJalrAdd inst : Emu β ExecFlags) := by
  refine k.bind k.getCore fun c => Relates.ite (Relates.ite (Relates.ite ?_ (k.jumpTo _ _)) ?_) ?_
  · exact k.bind (k.raise _ _) fun _ => k.pure _
  · exact k.cAlu _ _ (by decide) _
  · exact Relates.ite (Relates.ite (k.pure _) (k.jumpTo _ _)) (k.setGPR_retired _ _)

theorem execRvc (inst : BitVec 32) : Relates R E (Simple.execRvc inst : Emu β ExecFlags) := by
  unfold Simple.execRvc
  split
  · exact k.bind k.getCore fun c => Relates.ite (k.setGPR_retired _ _) (k.pure _)
  · exact k.cLoad _ _ _ _
  · exact k.cLoad _ _ _ _
  · exact k.cStore _ _ _ _
  · exact k.cStore _ _ _ _
  · exact Relates.ite (k.cAlu _ _ (by decide) _) (k.pure _)
  · exact k.cAlu _ _ (by decide) _
  · exact k.setGPR_retired _ _
  · exact k.execCAddi16spLui inst
  · exact k.execCAlu inst
  · exact k.cJump _
  · exact k.bind k.getCore fun c => Relates.ite (k.cJump _) (k.pure _)
  · exact k.bind k.getCore fun c => Relates.ite (k.cJump _) (k.pure _)
  · exact Relates.ite (k.cAlu _ _ (by decide) _) (k.pure _)
  · exact k.cLoad _ _ _ _
  · exact k.cLoad _ _ _ _
  · exact k.execCJrMvEbJalrAdd inst
  · exact k.cStore _ _ _ _
  · exact k.cStore _ _ _ _
  · exact k.pure _

theorem decodeExec (inst : BitVec 32) : Relates R E (Simple.decodeExec inst : Emu β StepLocals) :=
  k.bind (k.emit rfl rfl) fun _ => Relates.ite (k.bind (k.execRvc inst) fun _ => k.pure _)
    (k.bind (k.exec32 inst) fun _ => k.pure _)

end Compressed

end Traversed

/-! ## The step -/

namespace KeptWithin

variable {R : Machine β → Machine β → Prop} {P : Assertion → Machine β → Prop} {α ρ : Type}
variable (k : KeptWithin R P)
include k

theorem pure (a : α) : Tracks R P (pure a : Emu β α) := Tracks.pure k.refl a

theorem bind {x : Emu β α} {f : α → Emu β ρ} (hx : Tracks R P x)
    (hf : ∀ a, Tracks R P (f a)) : Tracks R P (x >>= f) := Tracks.bind k.trans hx hf

theorem getCore : Tracks R P Simple.getCore := fun s => k.refl s

theorem modifyCore (f : RV64Core → RV64Core) : Tracks R P (Simple.modifyCore f) :=
  fun s => k.core s (f s.core)

theorem assertThat {p : Prop} [Decidable p] {a : Assertion}
    (ha : a ≠ .duplicateMatch ∧ a ≠ .statusBlank) :
    Tracks R P (Simple.assertThat p a : Emu β Unit) :=
  Tracks.ite (k.pure ()) (Tracks.throw k.refl fun s => k.abort a s ha)

theorem raiseTrap (cause : Cause) (tval : BitVec 64) :
    Tracks R P (Simple.raiseTrap cause tval) := by
  refine k.bind (fun s => k.event s s.bus _ rfl) fun _ => k.bind k.getCore fun _ => ?_
  refine k.bind (k.assertThat (by decide)) fun _ => k.bind (k.assertThat (by decide)) fun _ => ?_
  refine k.bind (k.modifyCore _) fun _ => k.bind k.getCore fun _ => ?_
  exact k.assertThat (by decide)

/-- What it keeps the instructions keep. -/
theorem traversed : Traversed R (fun e s t => R s t ∧ P e t) where
  refl := k.refl
  trans := k.trans
  stop _ s t u hst h := ⟨k.trans s t u hst h.1, h.2⟩
  core s c _ := k.core s c
  event s b e he _ := k.event s b e he
  flush := k.flush
  translate := k.translate
  raise := k.raiseTrap
  abort a s ha := ⟨k.refl s, k.abort a s ⟨ha.1, ha.2.1⟩⟩

theorem preExec : Tracks R P (Simple.preExec : Emu β Unit) := by
  refine k.bind (k.modifyCore _) fun _ => k.bind k.getCore fun c => ?_
  cases c.intToRaise with
  | none => exact k.pure ()
  | some bits => exact k.raiseTrap _ _

theorem fetchDecodeExec : Tracks R P (Simple.fetchDecodeExec : Emu β StepLocals) := by
  refine k.bind k.getCore fun c => Tracks.ite (k.bind (k.raiseTrap _ _) fun _ => k.pure _) ?_
  refine k.bind (k.traversed.instFetch _ 4) fun r => Tracks.ite ?_ (k.traversed.decodeExec _)
  exact k.bind (k.assertThat (by decide)) fun _ => k.bind (k.raiseTrap _ _) fun _ => k.pure _

end KeptWithin

namespace Kept

variable {R : Machine β → Machine β → Prop} {P : Assertion → Machine β → Prop} (k : Kept R P)
include k

theorem within : KeptWithin R P where
  refl := k.refl
  trans := k.trans
  core := k.core
  event := k.event
  flush := k.flush
  translate := k.translate
  abort a s ha := k.abort a s ha.1

theorem endStep (l : StepLocals) : Tracks R P (Simple.endStep l : Emu β Unit) := by
  have w := k.within
  have hend : Tracks R P (do
      Simple.modifyCore (·.advancePC l)
      Simple.modifyCore (·.retire)
      let c ← Simple.getCore
      Simple.assertThat (statusBlankZero c.status = true) .statusBlank : Emu β Unit) :=
    w.bind (w.modifyCore _) fun _ => w.bind (w.modifyCore _) fun _ => w.bind w.getCore fun _ =>
      Tracks.ite (w.pure ()) (Tracks.throw k.refl fun s => k.abort .statusBlank s (by decide))
  unfold Simple.endStep
  dsimp only
  exact Tracks.ite (w.bind (w.raiseTrap _ _) fun _ => hend) hend

theorem step : Tracks R P (Simple.step : Emu β Unit) := by
  have w := k.within
  exact w.bind w.preExec fun _ => w.bind w.getCore fun _ => Tracks.ite (k.endStep {})
    (w.bind w.fetchDecodeExec fun l => k.endStep l)

end Kept

end NextEmu.Simple.Traversal
