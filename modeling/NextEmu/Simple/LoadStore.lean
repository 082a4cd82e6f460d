import NextEmu.Lib.ByteMemory
import NextEmu.Lib.RiscVEncoding
import NextEmu.Simple.DataPaths
import NextEmu.Simple.IntegerConformance

/-!
# Loads and stores on main memory

M mode, without a lent mode, on a bus whose main memory contains the bytes of the
access: a load reads the little-endian word of the bytes at its address, a store replaces
them, and an access that is not aligned traps. What a run of such instructions loads is
what it has stored last.
-/

namespace NextEmu.Simple.LoadStore

open NextEmu.Lib.AbortState NextEmu.Lib.BitField NextEmu.Lib.ByteMemory NextEmu.Lib.RiscV
open NextEmu.Sdk
open Conformance IntegerConformance PreciseTraps

/-! ## Main memory as a byte memory -/

section Bus

variable {δ : Type} [SlaveIOI δ] {b : AddrBus δ} {a : Addr} {l : Nat}

/-- The array and the two ends of main memory. -/
def region (b : AddrBus δ) : Option (Nat → BitVec 8) × Addr × Addr :=
  (b.mainMem, b.memBeginAddr, b.memEndAddr)

/-- What a region holds, by its addresses. -/
def contentsOf (r : Option (Nat → BitVec 8) × Addr × Addr) : Memory 64 := fun a =>
  r.1.getD (fun _ => 0) (a - r.2.1).toNat

def contents (b : AddrBus δ) : Memory 64 := contentsOf (region b)

/-- Main memory contains the range `[a, a + l)`. -/
structure Contains (b : AddrBus δ) (a : Addr) (l : Nat) : Prop where
  attached : b.mainMem.isSome = true
  begins : b.memBeginAddr.toNat ≤ a.toNat
  ends : a.toNat + l ≤ b.memEndAddr.toNat

omit [SlaveIOI δ] in
theorem region_congr {b c : AddrBus δ} (hmain : c.mainMem = b.mainMem)
    (hbegin : c.memBeginAddr = b.memBeginAddr) (hend : c.memEndAddr = b.memEndAddr) :
    region c = region b := by
  unfold region
  rw [hmain, hbegin, hend]

omit [SlaveIOI δ] in
theorem region_parts {c : AddrBus δ} (h : region c = region b) : c.mainMem = b.mainMem ∧
    c.memBeginAddr = b.memBeginAddr ∧ c.memEndAddr = b.memEndAddr := by
  unfold region at h
  simpa using h

theorem region_view : DataView (fun b : AddrBus δ => region b) :=
  dataView_of fun _ _ => region_congr

omit [SlaveIOI δ] in
theorem Contains.congr {c : AddrBus δ} (h : Contains b a l) (hr : region c = region b) :
    Contains c a l := by
  obtain ⟨hmem, hb, he⟩ := region_parts hr
  exact ⟨hmem ▸ h.attached, hb ▸ h.begins, he ▸ h.ends⟩

omit [SlaveIOI δ] in
theorem Contains.inMainMem (h : Contains b a l) : b.inMainMem a = true := by
  have hb := h.begins
  have he := h.ends
  unfold AddrBus.inMainMem
  rw [h.attached, Bool.true_and, Bool.and_eq_true, decide_eq_true_eq, decide_eq_true_eq,
    BitVec.le_def, BitVec.le_def]
  omega

omit [SlaveIOI δ] in
/-- The word of the bytes at an address is what the bus copies from there. -/
theorem word_contents : ∀ {l : Nat} {a : Addr}, Contains b a l → word (contents b) a l =
    readBytes (b.mainMem.getD fun _ => 0) (a - b.memBeginAddr).toNat l := by
  intro l
  induction l with
  | zero => exact fun _ => rfl
  | succ l ih =>
    intro a h
    have hb := h.begins
    have he := h.ends
    have hend := b.memEndAddr.isLt
    have hone : (1 : BitVec 64).toNat = 1 := rfl
    have hnext : (a + 1 - b.memBeginAddr).toNat = (a - b.memBeginAddr).toNat + 1 := by
      rw [BitVec.toNat_sub, BitVec.toNat_sub, BitVec.toNat_add, hone]
      omega
    unfold word readBytes
    cases l with
    | zero => rfl
    | succ l =>
      have hstep : (a + 1).toNat = a.toNat + 1 := by
        rw [BitVec.toNat_add, hone]
        omega
      rw [ih ⟨h.attached, by omega, by omega⟩, hnext]
      rfl

theorem load_contained (h : Contains b a l) :
    b.load a l = ((.success, word (contents b) a l), b) := by
  unfold AddrBus.load
  rw [if_pos h.inMainMem, word_contents h]

omit [SlaveIOI δ] in
/-- The array behind a copy is the memory behind a write. -/
theorem contentsOf_writeBytes (h : Contains b a l) (x : BitVec (8 * l)) :
    contentsOf (some (writeBytes (b.mainMem.getD fun _ => 0) (a - b.memBeginAddr).toNat l x),
      b.memBeginAddr, b.memEndAddr) = Write.apply ⟨a, l, x⟩ (contents b) := by
  funext c
  have hb := h.begins
  have he := h.ends
  have hend := b.memEndAddr.isLt
  have hin : (a - b.memBeginAddr).toNat ≤ (c - b.memBeginAddr).toNat ∧
      (c - b.memBeginAddr).toNat < (a - b.memBeginAddr).toNat + l ↔ (c - a).toNat < l := by
    rw [BitVec.toNat_sub, BitVec.toNat_sub, BitVec.toNat_sub]
    omega
  show writeBytes (b.mainMem.getD fun _ => 0) (a - b.memBeginAddr).toNat l x
      (c - b.memBeginAddr).toNat =
    if (c - a).toNat < l then x.extractLsb' (8 * (c - a).toNat) 8
    else b.mainMem.getD (fun _ => 0) (c - b.memBeginAddr).toNat
  unfold writeBytes
  by_cases hc : (c - a).toNat < l
  · have hoff : (c - b.memBeginAddr).toNat - (a - b.memBeginAddr).toNat = (c - a).toNat := by
      have hrange := hin.mpr hc
      rw [BitVec.toNat_sub, BitVec.toNat_sub, BitVec.toNat_sub] at *
      omega
    rw [if_pos (hin.mpr hc), if_pos hc, hoff]
  · rw [if_neg (fun hr => hc (hin.mp hr)), if_neg hc]

theorem store_region (h : Contains b a l) (x : BitVec (8 * l)) :
    (b.store a l x).1 = .success ∧ region (b.store a l x).2 =
      (some (writeBytes (b.mainMem.getD fun _ => 0) (a - b.memBeginAddr).toNat l x),
        b.memBeginAddr, b.memEndAddr) := by
  obtain ⟨hmain, hbegin, hend, -⟩ := b.breakReservation_memory a (BitVec.ofNat 64 l)
  have hc := h.congr (region_congr hmain hbegin hend)
  unfold AddrBus.store AddrBus.storeRouted region
  rw [if_pos hc.inMainMem, hmain, hbegin, hend]
  exact ⟨rfl, rfl⟩

theorem store_contained (h : Contains b a l) (x : BitVec (8 * l)) :
    (b.store a l x).1 = .success ∧
      contents (b.store a l x).2 = Write.apply ⟨a, l, x⟩ (contents b) := by
  obtain ⟨hok, hregion⟩ := store_region h x
  refine ⟨hok, ?_⟩
  rw [← contentsOf_writeBytes h x, ← hregion]
  rfl

/-- What is stored is what is loaded from there. -/
theorem load_stored (h : Contains b a l) (x : BitVec (8 * l)) :
    Contains (b.store a l x).2 a l ∧ word (contents (b.store a l x).2) a l = x := by
  have hregion := (store_region h x).2
  have hmain : (b.store a l x).2.mainMem = _ := congrArg Prod.fst hregion
  have hbegin : (b.store a l x).2.memBeginAddr = _ := congrArg (·.2.1) hregion
  have hend : (b.store a l x).2.memEndAddr = _ := congrArg (·.2.2) hregion
  have hinside : Contains (b.store a l x).2 a l :=
    ⟨by rw [hmain]; rfl, by rw [hbegin]; exact h.begins, by rw [hend]; exact h.ends⟩
  refine ⟨hinside, ?_⟩
  rw [word_contents hinside, hmain, hbegin]
  exact readBytes_writeBytes _ _ _ _

end Bus

/-! ## The access of the core -/

section Access

variable {δ : Type} [SlaveIOI δ] {t : Machine (AddrBus δ)} {a : BitVec 64} {n : Nat}

/-- An address that is a multiple of the size. -/
def Aligned (a : BitVec 64) (n : Nat) : Prop := a.toNat % n = 0

instance (a : BitVec 64) (n : Nat) : Decidable (Aligned a n) := inferInstanceAs (Decidable (_ = _))

/-- The alignment check. -/
theorem aligned_iff (a : BitVec 64) (width : Width) :
    a % BitVec.ofNat 64 width.bytes = 0 ↔ Aligned a width.bytes := by
  have hbytes : (BitVec.ofNat 64 width.bytes).toNat = width.bytes := by cases width <;> rfl
  rw [← BitVec.toNat_inj, BitVec.toNat_umod, hbytes]
  exact Iff.rfl

/-- The MMU without translation, where main memory contains the bytes. -/
theorem vaddrRead_contained (hbare : t.core.dataBare = true) (h : Contains t.bus a n) :
    vaddrReadBufferMMUAPI a n t =
      .ok (.accessOk, word (contents t.bus) a n) { t with trace := .load a n :: t.trace } := by
  have hload : SlaveIOI.load t.bus a n = ((.success, word (contents t.bus) a n), t.bus) :=
    load_contained h
  unfold vaddrReadBufferMMUAPI
  rw [bind_of_ok (getCore_run t), if_pos hbare, DataPaths.physRead_run, hload]
  rfl

theorem vaddrWrite_contained (hbare : t.core.dataBare = true) (h : Contains t.bus a n)
    (x : BitVec (8 * n)) : vaddrWriteBufferMMUAPI a n x t = .ok .accessOk { t with
      bus := (t.bus.store a n x).2
      trace := .store a n :: t.trace } := by
  have hstore : (SlaveIOI.store t.bus a n x).1 = .success := (store_contained h _).1
  unfold vaddrWriteBufferMMUAPI
  rw [bind_of_ok (getCore_run t), if_pos hbare]
  show EStateM.Result.ok (if _ then VAddrFeedback.accessOk else .accessFault) _ = _
  rw [if_pos hstore]
  rfl

theorem memRead_aligned (hbare : t.core.dataBare = true) (h : Contains t.bus a n)
    (hal : a % BitVec.ofNat 64 n = 0) : memRead a n t =
      .ok (some (word (contents t.bus) a n)) { t with trace := .load a n :: t.trace } := by
  unfold memRead
  rw [if_neg (not_not_intro hal), bind_of_ok (vaddrRead_contained hbare h)]
  rfl

theorem memWrite_aligned (hbare : t.core.dataBare = true) (h : Contains t.bus a n)
    (hal : a % BitVec.ofNat 64 n = 0) (src : BitVec 64) : memWrite a n src t = .ok () { t with
      bus := (t.bus.store a n (src.setWidth (8 * n))).2
      trace := .store a n :: t.trace } := by
  unfold memWrite
  rw [if_neg (not_not_intro hal), bind_of_ok (vaddrWrite_contained hbare h _)]
  rfl

omit [SlaveIOI δ] in
/-- The trap of an access that is not aligned. -/
theorem misaligned_run (hn : t.core.needTrap = false) {code : BitVec 63}
    (hcode : code = Exec.loadMisalign ∨ code = Exec.storeMisalign) :
    raiseTrap (exception code) a t = .ok () { t with
      core := t.core.trapped (exception code) a
      trace := .trap (exception code) a :: t.trace } := by
  rcases hcode with rfl | rfl
  · exact Outcomes.raiseTrap_run hn (by decide) (by decide) a
  · exact Outcomes.raiseTrap_run hn (by decide) (by decide) a

theorem memRead_misaligned (hn : t.core.needTrap = false) (hal : ¬ a % BitVec.ofNat 64 n = 0) :
    memRead a n t = .ok none { t with
      core := t.core.trapped (exception Exec.loadMisalign) a
      trace := .trap (exception Exec.loadMisalign) a :: t.trace } := by
  unfold memRead
  rw [if_pos hal, bind_of_ok (misaligned_run hn (.inl rfl))]
  rfl

theorem memWrite_misaligned (hn : t.core.needTrap = false) (hal : ¬ a % BitVec.ofNat 64 n = 0)
    (src : BitVec 64) : memWrite a n src t = .ok () { t with
      core := t.core.trapped (exception Exec.storeMisalign) a
      trace := .trap (exception Exec.storeMisalign) a :: t.trace } := by
  unfold memWrite
  rw [if_pos hal, bind_of_ok (misaligned_run hn (.inr rfl))]
  rfl

end Access

/-! ## The instructions -/

section Decode

variable {β : Type} [SlaveAtomicIOI β]

theorem sImm_sType (imm : BitVec 12) (rs2 rs1 : BitVec 5) (funct3 : BitVec 3)
    (opcode : BitVec 7) : RVInst.sImm (sType imm rs2 rs1 funct3 opcode) = imm.signExtend 64 := by
  have hhigh : field (sType imm rs2 rs1 funct3 opcode) 25 7 = imm.extractLsb' 5 7 :=
    funct7_rType ..
  have hlow : field (sType imm rs2 rs1 funct3 opcode) 7 5 = imm.extractLsb' 0 5 := rd_rType ..
  unfold RVInst.sImm
  rw [hhigh, hlow]
  refine BitVec.eq_of_getLsbD_eq fun i hi => ?_
  simp only [BitVec.getLsbD_signExtend, BitVec.getLsbD_or, BitVec.getLsbD_shiftLeft,
    BitVec.getLsbD_setWidth, BitVec.getLsbD_extractLsb', BitVec.msb_eq_getLsbD_last]
  grind

theorem encode_opcode (i : MemInst) : isCompressed i.encode = false ∧
    OpCode.ofBits (RVInst.opcode i.encode) = some (match i with
      | .load .. => .load
      | .store .. => .store) := by
  unfold isCompressed
  cases i with
  | load op rd rs1 imm => rw [MemInst.encode, iType_eq, opcode_rType]; exact ⟨rfl, rfl⟩
  | store width rs1 rs2 imm => rw [MemInst.encode, sType, opcode_rType]; exact ⟨rfl, rfl⟩

theorem load_run (op : LoadOp) (rd rs1 : BitVec 5) (imm : BitVec 12) (m : Machine β) :
    execute (MemInst.load op rd rs1 imm).encode m =
      loadGPR (m.core.gpr rs1 + imm.signExtend 64) op.width.bytes (extend op.unsigned) rd m := by
  have hop := (encode_opcode (.load op rd rs1 imm)).2
  have hf3 : RVInst.funct3 (MemInst.load op rd rs1 imm).encode = op.funct3 := by
    rw [MemInst.encode, iType_eq, funct3_rType]
  have hrs1 : RVInst.rs1 (MemInst.load op rd rs1 imm).encode = rs1 := by
    rw [MemInst.encode, iType_eq, rs1_rType]
  have hrd : RVInst.rd (MemInst.load op rd rs1 imm).encode = rd := by
    rw [MemInst.encode, iType_eq, rd_rType]
  have himm : RVInst.iImm12 (MemInst.load op rd rs1 imm).encode = imm.signExtend 64 :=
    iImm12_iType ..
  unfold execute exec32
  rw [(encode_opcode (.load op rd rs1 imm)).1, hop]
  show execLoad _ m = _
  unfold execLoad
  rw [bind_of_ok (getCore_run m), hf3, hrs1, hrd, himm]
  cases op <;> rfl

theorem store_run (width : Width) (rs1 rs2 : BitVec 5) (imm : BitVec 12) (m : Machine β) :
    execute (MemInst.store width rs1 rs2 imm).encode m =
      (do
        memWrite (m.core.gpr rs1 + imm.signExtend 64) width.bytes (m.core.gpr rs2)
        return retired : Emu β ExecFlags) m := by
  have hop := (encode_opcode (.store width rs1 rs2 imm)).2
  have hf3 : RVInst.funct3 (MemInst.store width rs1 rs2 imm).encode = width.funct3 :=
    funct3_rType ..
  have hrs1 : RVInst.rs1 (MemInst.store width rs1 rs2 imm).encode = rs1 := rs1_rType ..
  have hrs2 : RVInst.rs2 (MemInst.store width rs1 rs2 imm).encode = rs2 := rs2_rType ..
  have himm : RVInst.sImm (MemInst.store width rs1 rs2 imm).encode = imm.signExtend 64 :=
    sImm_sType ..
  unfold execute exec32
  rw [(encode_opcode (.store width rs1 rs2 imm)).1, hop]
  show execStore _ m = _
  unfold execStore
  rw [bind_of_ok (getCore_run m), hf3, hrs1, hrs2, himm]
  cases width <;> rfl

end Decode

/-! ## The step -/

section Step

variable {δ : Type} [SlaveIOI δ] {s : Machine (AddrBus δ)} {i : MemInst}

/-- The next step is one of M mode that takes no interrupt and fetches the instruction, no mode is
lent, and main memory contains the bytes of the access. -/
structure Accesses (s : Machine (AddrBus δ)) (i : MemInst) : Prop where
  mode : s.core.nextPrivMode = .mMode
  mprv : s.core.status.getLsbD MStatus.mprv = false
  word : fetchedWord s = some i.encode
  inside : Contains s.bus (i.addr s.core.gpr) i.width.bytes

/-- The step has replaced bytes of main memory, and no register but the PC. -/
structure Stores (s : Machine (AddrBus δ)) (x : Write 64) : Prop where
  gpr : (final step s).core.gpr = s.core.gpr
  memory : contents (final step s).bus = x.apply (contents s.bus)
  pc : (final step s).core.currentProgramCounter = s.core.currentProgramCounter + 4
  returns : returns step s = statusBlankZero s.core.status

/-- The step has raised an exception for an address to M mode, and changed no register and no
memory. -/
structure Refuses (s : Machine (AddrBus δ)) (code : BitVec 63) (addr : BitVec 64) : Prop where
  excepts : Excepts contents s (exception code) addr
  cause : (final step s).core.csrMachineCause = (exception code).val
  tval : (final step s).core.csrMachineTrapVal = addr
  mode : (final step s).core.nextPrivMode = .mMode

/-- The exception for an access that is not aligned. -/
def misalignCode : MemInst → BitVec 63
  | .load .. => Exec.loadMisalign
  | .store .. => Exec.storeMisalign

/-- What the step is for an instruction: an access to an array of bytes. -/
structure Refines (s : Machine (AddrBus δ)) (i : MemInst) : Prop where
  aligned : Aligned (i.addr s.core.gpr) i.width.bytes → match i with
    | .load op rd _ _ => Retires contents s s.bus rd
        (extend op.unsigned (word (contents s.bus) (i.addr s.core.gpr) op.width.bytes))
        (s.core.currentProgramCounter + 4)
    | .store width _ rs2 _ =>
      Stores s ⟨i.addr s.core.gpr, width.bytes, (s.core.gpr rs2).setWidth (8 * width.bytes)⟩
  misaligned : ¬ Aligned (i.addr s.core.gpr) i.width.bytes →
    Refuses s (misalignCode i) (i.addr s.core.gpr)

/-- What the decoder of the step finds. -/
theorem Accesses.decoding (h : Accesses s i) :
    (decoding s i.encode).core = s.core.sampled ∧
      region (decoding s i.encode).bus = region s.bus ∧
      (decoding s i.encode).core.dataBare = true := by
  obtain ⟨hcore, hquiet⟩ := decoding_silent h.word
  refine ⟨hcore, region_view.quiet hquiet, ?_⟩
  rw [hcore]
  have hmode : s.core.sampled.currentPrivMode = .mMode := h.mode
  have hmprv : s.core.sampled.status.getLsbD MStatus.mprv = false := h.mprv
  unfold RV64Core.dataBare
  rw [hmode, hmprv]
  rfl

/-- The end of a step whose access is not aligned. -/
theorem Accesses.refuses (h : Accesses s i) {code : BitVec 63} {t : Machine (AddrBus δ)}
    {addr : BitVec 64} (hran : Ran 4 s i.encode retired t)
    (hcore : t.core = s.core.sampled.trapped (exception code) addr)
    (hbus : region t.bus = region s.bus) : Refuses s code addr := by
  have hexcepts : Excepts contents s (exception code) addr :=
    hran.excepts hcore (congrArg contentsOf hbus)
  have hdest : s.core.sampled.delegated (exception code) = false := by
    have hmode : s.core.sampled.currentPrivMode = .mMode := h.mode
    unfold RV64Core.delegated
    rw [hmode]
    rfl
  have htrap : s.core.sampled.trapped (exception code) addr =
      ({ s.core.sampled with needTrap := true } : RV64Core).trapToM (exception code) addr :=
    if_neg (Bool.eq_false_iff.mp hdest)
  have hfinal := hexcepts.core
  rw [htrap] at hfinal
  refine ⟨hexcepts, ?_, ?_, ?_⟩
  · rw [hfinal]
    rfl
  · rw [hfinal]
    rfl
  · rw [hfinal]
    rfl

theorem load_refines {op : LoadOp} {rd rs1 : BitVec 5} {imm : BitVec 12}
    (h : Accesses s (.load op rd rs1 imm)) : Refines s (.load op rd rs1 imm) := by
  obtain ⟨hcore, hbus, hbare⟩ := h.decoding
  have hlen : (4 : BitVec 64) =
      if isCompressed (MemInst.load op rd rs1 imm).encode then 2 else 4 := by
    rw [(encode_opcode _).1]
    rfl
  have hrun := load_run op rd rs1 imm (decoding s (MemInst.load op rd rs1 imm).encode)
  have haddr : (decoding s (MemInst.load op rd rs1 imm).encode).core.gpr rs1 +
      imm.signExtend 64 = (MemInst.load op rd rs1 imm).addr s.core.gpr := by
    rw [hcore]
    rfl
  rw [haddr] at hrun
  unfold loadGPR at hrun
  constructor
  case aligned =>
    intro hal
    have hinside : Contains (decoding s (MemInst.load op rd rs1 imm).encode).bus
        ((MemInst.load op rd rs1 imm).addr s.core.gpr) op.width.bytes := h.inside.congr hbus
    rw [bind_of_ok (memRead_aligned hbare hinside ((aligned_iff _ _).mpr hal))] at hrun
    have hsame : contents (decoding s (MemInst.load op rd rs1 imm).encode).bus = contents s.bus :=
      congrArg contentsOf hbus
    refine (Ran.mk h.word hlen hrun).retires ?_ hsame
    rw [← hsame, ← hcore]
  case misaligned =>
    intro hal
    have hclear : (decoding s (MemInst.load op rd rs1 imm).encode).core.needTrap = false := by
      rw [hcore]
      rfl
    have hodd : ¬ (MemInst.load op rd rs1 imm).addr s.core.gpr %
        BitVec.ofNat 64 op.width.bytes = 0 := fun hc => hal ((aligned_iff _ op.width).mp hc)
    rw [bind_of_ok (memRead_misaligned hclear hodd)] at hrun
    refine h.refuses (Ran.mk h.word hlen hrun) ?_ hbus
    rw [← hcore]
    rfl

theorem store_refines {width : Width} {rs1 rs2 : BitVec 5} {imm : BitVec 12}
    (h : Accesses s (.store width rs1 rs2 imm)) : Refines s (.store width rs1 rs2 imm) := by
  obtain ⟨hcore, hbus, hbare⟩ := h.decoding
  have hlen : (4 : BitVec 64) =
      if isCompressed (MemInst.store width rs1 rs2 imm).encode then 2 else 4 := by
    rw [(encode_opcode _).1]
    rfl
  have hrun := store_run width rs1 rs2 imm (decoding s (MemInst.store width rs1 rs2 imm).encode)
  have haddr : (decoding s (MemInst.store width rs1 rs2 imm).encode).core.gpr rs1 +
      imm.signExtend 64 = (MemInst.store width rs1 rs2 imm).addr s.core.gpr := by
    rw [hcore]
    rfl
  have hsrc : (decoding s (MemInst.store width rs1 rs2 imm).encode).core.gpr rs2 =
      s.core.gpr rs2 := by
    rw [hcore]
    rfl
  rw [haddr, hsrc] at hrun
  constructor
  case aligned =>
    intro hal
    have hinside : Contains (decoding s (MemInst.store width rs1 rs2 imm).encode).bus
        ((MemInst.store width rs1 rs2 imm).addr s.core.gpr) width.bytes := h.inside.congr hbus
    rw [bind_of_ok (memWrite_aligned hbare hinside ((aligned_iff _ _).mpr hal) _)] at hrun
    have hsame : contents (decoding s (MemInst.store width rs1 rs2 imm).encode).bus =
        contents s.bus := congrArg contentsOf hbus
    have hretires : Retires contents s _ 0 0 (s.core.currentProgramCounter + 4) :=
      (Ran.mk h.word hlen hrun).retires hcore rfl
    refine ⟨funext fun r => ?_, ?_, hretires.pc, hretires.returns⟩
    · rw [hretires.gpr r, if_neg]
      rintro ⟨rfl, hne⟩
      exact hne rfl
    · rw [hretires.memory, ← hsame]
      exact (store_contained hinside _).2
  case misaligned =>
    intro hal
    have hclear : (decoding s (MemInst.store width rs1 rs2 imm).encode).core.needTrap = false := by
      rw [hcore]
      rfl
    have hodd : ¬ (MemInst.store width rs1 rs2 imm).addr s.core.gpr %
        BitVec.ofNat 64 width.bytes = 0 := fun hc => hal ((aligned_iff _ width).mp hc)
    rw [bind_of_ok (memWrite_misaligned hclear hodd _)] at hrun
    refine h.refuses (Ran.mk h.word hlen hrun) ?_ hbus
    rw [← hcore]
    rfl

/-- Each load and store is an access to an array of bytes. -/
theorem Accesses.refines (h : Accesses s i) : Refines s i := by
  cases i with
  | load op rd rs1 imm => exact load_refines h
  | store width rs1 rs2 imm => exact store_refines h

end Step

/-! ## Runs -/

section Runs

variable {δ : Type} [SlaveIOI δ] {s t u : Machine (AddrBus δ)} {log : List Entry}

/-- What a load or a store has done. -/
inductive Entry
  /-- The value is that of the register behind the load. -/
  | loaded (op : LoadOp) (rd : BitVec 5) (addr value : BitVec 64)
  | stored (x : Write 64)
  | refused

/-- The entry for an instruction that has led from `s` to `t`. -/
def entryOf (s t : Machine (AddrBus δ)) (i : MemInst) : Entry :=
  let addr := i.addr s.core.gpr
  if Aligned addr i.width.bytes then
    match i with
    | .load op rd _ _ => .loaded op rd addr (t.core.gpr rd)
    | .store width _ rs2 _ =>
      .stored ⟨addr, width.bytes, (s.core.gpr rs2).setWidth (8 * width.bytes)⟩
  else .refused

/-- A run of loads and stores, newest first. Between two of them anything may happen that leaves
main memory alone. -/
inductive Run (s : Machine (AddrBus δ)) : List Entry → Machine (AddrBus δ) → Prop
  | start : Run s [] s
  | idle {log : List Entry} {t u : Machine (AddrBus δ)} (h : Run s log t)
      (kept : contents u.bus = contents t.bus) : Run s log u
  | access {log : List Entry} {t u : Machine (AddrBus δ)} {i : MemInst} (h : Run s log t)
      (accesses : Accesses t i) (steps : step t = .ok () u) : Run s (entryOf t u i :: log) u

/-- The bytes that the entries have stored. -/
def writes : List Entry → List (Write 64)
  | [] => []
  | .stored x :: log => x :: writes log
  | _ :: log => writes log

/-- Every load has found the last bytes stored before it, or those of `m` where nothing was. -/
def Coherent (m : Memory 64) : List Entry → Prop
  | [] => True
  | .loaded op rd addr value :: log =>
    (rd ≠ 0 → value = extend op.unsigned (word (lastByte m (writes log)) addr op.width.bytes)) ∧
      Coherent m log
  | _ :: log => Coherent m log

/-- What one load or store does to the memory and to the entries. -/
theorem coherent_access {m : Memory 64} {i : MemInst} (h : Accesses t i)
    (hstep : step t = .ok () u) (hmem : contents t.bus = lastByte m (writes log))
    (hlog : Coherent m log) : contents u.bus = lastByte m (writes (entryOf t u i :: log)) ∧
      Coherent m (entryOf t u i :: log) := by
  have hfinal : final step t = u := final_of_ok hstep
  have href := h.refines
  unfold entryOf
  by_cases hal : Aligned (i.addr t.core.gpr) i.width.bytes
  · dsimp only
    rw [if_pos hal]
    cases i with
    | load op rd rs1 imm =>
      have hret : Retires contents t t.bus rd _ _ := href.aligned hal
      refine ⟨?_, fun hrd => ?_, hlog⟩
      · rw [← hfinal, hret.memory]
        exact hmem
      · have hvalue := hret.gpr rd
        rw [if_pos ⟨rfl, hrd⟩, hfinal, hmem] at hvalue
        exact hvalue
    | store width rs1 rs2 imm =>
      have hst : Stores t _ := href.aligned hal
      refine ⟨?_, hlog⟩
      rw [← hfinal, hst.memory, hmem, ← replay_eq_lastByte, ← replay_eq_lastByte]
      rfl
  · dsimp only
    rw [if_neg hal]
    refine ⟨?_, hlog⟩
    rw [← hfinal, (href.misaligned hal).excepts.memory]
    exact hmem

theorem Run.coherent (h : Run s log t) :
    contents t.bus = lastByte (contents s.bus) (writes log) ∧ Coherent (contents s.bus) log := by
  induction h with
  | start => exact ⟨rfl, trivial⟩
  | idle _ kept ih => exact ⟨kept.trans ih.1, ih.2⟩
  | access _ accesses steps ih => exact coherent_access accesses steps ih.1 ih.2

/-- Loads and stores of M mode are accesses to an array of bytes, each of them and so, in a run,
every load finds the last bytes stored. -/
theorem loads_and_stores (s : Machine (AddrBus δ)) :
    (∀ i, Accesses s i → Refines s i) ∧
      ∀ log t, Run s log t → contents t.bus = lastByte (contents s.bus) (writes log) ∧
        Coherent (contents s.bus) log :=
  ⟨fun _ h => h.refines, fun _ _ h => h.coherent⟩

end Runs

/-- `sd x1, 0x100(x2)` and `lb x3, 0x107(x2)` at the start of the memory. -/
def storeMachine : Machine (AddrBus Empty) :=
  Machine.start { (default : RV64Core) with
    currentProgramCounter := 0x80000000, nextPrivMode := .mMode
    gpr := fun r => if r = 1 then 0xfedcba9876543210 else if r = 2 then 0x80000000 else 0 }
    (Translation.memoryBus fun a => (0x10710183#32 ++ 0x10113023#32).extractLsb' (8 * a) 8)

theorem loads_and_stores_sd :
    Refines storeMachine (.store .double 2 1 0x100) ∧
      (final step (final step storeMachine)).core.gpr 3 = 0xfffffffffffffffe :=
  ⟨(loads_and_stores storeMachine).1 (.store .double 2 1 0x100)
    ⟨rfl, rfl, by decide +kernel, rfl, by decide +kernel, by decide +kernel⟩, by decide +kernel⟩

end NextEmu.Simple.LoadStore
