import NextEmu.MiniCPU.Contexts
import NextEmu.Simple.HartRuns

/-!
# Runs of the MiniCPU are runs of a board of harts

Four harts of the manual share main memory and take turns: the one whose turn it is runs
until it stores the number of another to the context register. A MiniCPU that is not
disturbed runs the programs of its contexts like this board, for as long as the board has
steps.
-/

namespace NextEmu.MiniCPU.BoardRuns

open NextEmu.Lib.AbortState NextEmu.Lib.BitField NextEmu.Lib.ByteMemory NextEmu.Lib.Following
open NextEmu.Lib.RiscV NextEmu.Lib.RiscV.Compressed NextEmu.Sdk NextEmu.Simple
open Agreement Contexts
open Simple.HartRuns Simple.IntegerConformance Simple.RvcImmediates Simple.RvcConformance
open Outcomes (traps)

/-! ## Loads and stores -/

section Memory

variable {β : Type} [SlaveAtomicIOI β] {t : Machine β} {w : BitVec 32}

/-- The code of an instruction, compressed or not. -/
def execute (inst : BitVec 32) : Emu β ExecFlags :=
  if isCompressed inst then execRvc inst else exec32 inst

/-- The code of a load or a store is that of its access. -/
def Accesses (w : BitVec 32) (t : Machine β) : Effect → Prop
  | .load rd addr width unsigned =>
    execute w t = loadGPR addr width.bytes (extend unsigned) rd t
  | .store addr width data =>
    execute w t = (do memWrite addr width.bytes data; return retired : Emu β ExecFlags) t
  | _ => True

theorem load_accesses (hin : t.core.InRange) (op : LoadOp) (rd rs1 : Reg) (imm : BitVec 12) :
    effectiveAddr t.core.simple (MemInst.load op rd rs1 imm).encode =
        some (t.core.simple.gpr rs1 + imm.signExtend 64) ∧
      execute (MemInst.load op rd rs1 imm).encode t = loadGPR
        (t.core.simple.gpr rs1 + imm.signExtend 64) op.width.bytes (extend op.unsigned) rd t := by
  have hcode := LoadStore.encode_opcode (.load op rd rs1 imm)
  have hop : RVInst.opcode (MemInst.load op rd rs1 imm).encode = 0b0000011 := by
    rw [MemInst.encode, iType_eq, opcode_rType]
  have hf3 : RVInst.funct3 (MemInst.load op rd rs1 imm).encode = op.funct3 := by
    rw [MemInst.encode, iType_eq, funct3_rType]
  have hrs1 : RVInst.rs1 (MemInst.load op rd rs1 imm).encode = rs1 := by
    rw [MemInst.encode, iType_eq, rs1_rType]
  have hrd : RVInst.rd (MemInst.load op rd rs1 imm).encode = rd := by
    rw [MemInst.encode, iType_eq, rd_rType]
  have himm : RVInst.iImm12 (MemInst.load op rd rs1 imm).encode = imm.signExtend 64 :=
    iImm12_iType ..
  constructor
  · unfold effectiveAddr
    rw [hcode.1, hcode.2, hrs1, himm]
    rfl
  · unfold execute exec32
    rw [hcode.1, hop]
    show execLoad _ t = _
    unfold execLoad
    rw [bind_of_ok (getCtx_run hin), hf3, hrs1, hrd, himm]
    cases op <;> rfl

theorem store_accesses (hin : t.core.InRange) (width : Width) (rs1 rs2 : Reg) (imm : BitVec 12) :
    effectiveAddr t.core.simple (MemInst.store width rs1 rs2 imm).encode =
        some (t.core.simple.gpr rs1 + imm.signExtend 64) ∧
      execute (MemInst.store width rs1 rs2 imm).encode t = (do
        memWrite (t.core.simple.gpr rs1 + imm.signExtend 64) width.bytes (t.core.simple.gpr rs2)
        return retired : Emu β ExecFlags) t := by
  have hcode := LoadStore.encode_opcode (.store width rs1 rs2 imm)
  have hop : RVInst.opcode (MemInst.store width rs1 rs2 imm).encode = 0b0100011 := by
    rw [MemInst.encode, sType, opcode_rType]
  have hf3 : RVInst.funct3 (MemInst.store width rs1 rs2 imm).encode = width.funct3 :=
    funct3_rType ..
  have hrs1 : RVInst.rs1 (MemInst.store width rs1 rs2 imm).encode = rs1 := rs1_rType ..
  have hrs2 : RVInst.rs2 (MemInst.store width rs1 rs2 imm).encode = rs2 := rs2_rType ..
  have himm : RVInst.sImm (MemInst.store width rs1 rs2 imm).encode = imm.signExtend 64 :=
    LoadStore.sImm_sType ..
  constructor
  · unfold effectiveAddr
    rw [hcode.1, hcode.2, hrs1, himm]
    rfl
  · unfold execute exec32
    rw [hcode.1, hop]
    show execStore _ t = _
    unfold execStore
    rw [bind_of_ok (getCtx_run hin), hf3, hrs1, hrs2, himm]
    cases width <;> rfl

theorem base_accesses (hin : t.core.InRange) (i : BaseInst) :
    effectiveAddr t.core.simple i.encode =
        (i.toInst.effect 4 t.core.simple.gpr t.core.simple.currentProgramCounter).addr ∧
      Accesses i.encode t
        (i.toInst.effect 4 t.core.simple.gpr t.core.simple.currentProgramCounter) := by
  have htransfer : ∀ j : ControlTransfer.Transfer, effectiveAddr t.core.simple j.encode = none := by
    intro j
    have hcode := ControlTransfer.encode_opcode j
    unfold effectiveAddr
    rw [hcode.1, hcode.2]
    cases j <;> rfl
  cases i with
  | comp i =>
    obtain ⟨hop, hlen⟩ := IntegerConformance.opcode_encode i
    refine ⟨?_, trivial⟩
    change effectiveAddr _ i.encode = none
    unfold effectiveAddr
    rw [hlen, hop]
    cases i <;> rfl
  | mem i =>
    cases i with
    | load op rd rs1 imm => exact load_accesses hin op rd rs1 imm
    | store width rs1 rs2 imm => exact store_accesses hin width rs1 rs2 imm
  | jal rd imm => exact ⟨htransfer (.jal rd imm), trivial⟩
  | jalr rd rs1 imm => exact ⟨htransfer (.jalr rd rs1 imm), trivial⟩
  | branch op rs1 rs2 imm => exact ⟨htransfer (.branch op rs1 rs2 imm), trivial⟩

/-- C.LW, C.LD, C.LWSP and C.LDSP. -/
theorem cLoad_accesses (hin : t.core.InRange) {imm : BitVec 64} {imm12 : BitVec 12}
    (h : imm = imm12.signExtend 64) (base rd : Reg) (width : Width) :
    cLoad base imm width.bytes rd t = loadGPR (t.core.simple.gpr base + imm12.signExtend 64)
      width.bytes (extend false) rd t := by
  unfold cLoad
  rw [bind_of_ok (getCtx_run hin), h]
  rfl

/-- C.SW, C.SD, C.SWSP and C.SDSP. -/
theorem cStore_accesses (hin : t.core.InRange) {imm : BitVec 64} {imm12 : BitVec 12}
    (h : imm = imm12.signExtend 64) (base rs2 : Reg) (width : Width) :
    cStore base imm width.bytes rs2 t = (do
      memWrite (t.core.simple.gpr base + imm12.signExtend 64) width.bytes (t.core.simple.gpr rs2)
      return retired : Emu β ExecFlags) t := by
  unfold cStore
  rw [bind_of_ok (getCtx_run hin), h]

/-- An access of a compressed instruction, as the decoder of the source finds it. -/
structure CAccess (w : BitVec 32) (t : Machine β) (x : Emu β ExecFlags) (base : Reg)
    (imm : BitVec 64) : Prop where
  code : execute w t = x t
  addr : effectiveAddr t.core.simple w = some (t.core.simple.gpr base + imm)

theorem CAccess.load (hin : t.core.InRange) {base rd : Reg} {imm : BitVec 64} {imm12 : BitVec 12}
    (width : Width) (h : CAccess w t (cLoad base imm width.bytes rd) base imm)
    (himm : imm = imm12.signExtend 64) :
    effectiveAddr t.core.simple w = some (t.core.simple.gpr base + imm12.signExtend 64) ∧
      Accesses w t (.load rd (t.core.simple.gpr base + imm12.signExtend 64) width false) := by
  subst himm
  exact ⟨h.addr, h.code.trans (cLoad_accesses hin rfl base rd width)⟩

theorem CAccess.store (hin : t.core.InRange) {base rs2 : Reg} {imm : BitVec 64}
    {imm12 : BitVec 12} (width : Width) (h : CAccess w t (cStore base imm width.bytes rs2) base imm)
    (himm : imm = imm12.signExtend 64) :
    effectiveAddr t.core.simple w = some (t.core.simple.gpr base + imm12.signExtend 64) ∧
      Accesses w t (.store (t.core.simple.gpr base + imm12.signExtend 64) width
        (t.core.simple.gpr rs2)) := by
  subst himm
  exact ⟨h.addr, h.code.trans (cStore_accesses hin rfl base rs2 width)⟩

/-- The address of a compressed access, by its opcode. -/
def codeAddr (c : Simple.RV64Core) (w : BitVec 32) : Option COpCode → Option (BitVec 64)
  | some .lw | some .sw => some (c.gpr (RVC.highReg w) + RVC.immW w)
  | some .ld | some .sd => some (c.gpr (RVC.highReg w) + RVC.immD w)
  | some .lwsp => some (c.gpr 2 + RVC.immLwsp w)
  | some .ldsp => some (c.gpr 2 + RVC.immLdsp w)
  | some .swsp => some (c.gpr 2 + RVC.immSwsp w)
  | some .sdsp => some (c.gpr 2 + RVC.immSdsp w)
  | _ => none

/-- What the decoder of the source finds under an opcode. -/
theorem rvc_code (hcomp : isCompressed w = true) {q : BitVec 2} {f : BitVec 3}
    (hq : field (w.setWidth 16) 0 2 = q) (hf : field (w.setWidth 16) 13 3 = f) :
    RVC.opcode w = q ++ f ∧ execute (β := β) w = execRvc w ∧
      ∀ c, effectiveAddr c w = codeAddr c w (COpCode.ofBits (q ++ f)) := by
  subst hq hf
  refine ⟨opcode_eq w, if_pos hcomp, fun c => ?_⟩
  unfold effectiveAddr
  rw [if_pos hcomp, opcode_eq]
  rfl

theorem quadrant0_accesses (hin : t.core.InRange) (hcomp : isCompressed w = true) {i : Inst}
    (hq : field (w.setWidth 16) 0 2 = 0b00) (h : expand0 (w.setWidth 16) = some i) :
    effectiveAddr t.core.simple w =
        (i.effect 2 t.core.simple.gpr t.core.simple.currentProgramCounter).addr ∧
      Accesses w t (i.effect 2 t.core.simple.gpr t.core.simple.currentProgramCounter) := by
  unfold expand0 at h
  dsimp only at h
  split at h
  case h_6 => cases h
  all_goals
    rename_i hf
    obtain ⟨hop, hexec, haddr⟩ := rvc_code (β := β) hcomp hq hf
  · split at h
    · cases h
    · cases h
      exact ⟨haddr _, trivial⟩
  · cases h
    rw [← highReg_eq, ← lowReg_eq]
    refine CAccess.load hin .word ⟨?_, haddr _⟩ (immW_eq w)
    rw [hexec, execRvc, hop]
    rfl
  · cases h
    rw [← highReg_eq, ← lowReg_eq]
    refine CAccess.load hin .double ⟨?_, haddr _⟩ (immD_eq w)
    rw [hexec, execRvc, hop]
    rfl
  · cases h
    rw [← highReg_eq, ← lowReg_eq]
    refine CAccess.store hin .word ⟨?_, haddr _⟩ (immW_eq w)
    rw [hexec, execRvc, hop]
    rfl
  · cases h
    rw [← highReg_eq, ← lowReg_eq]
    refine CAccess.store hin .double ⟨?_, haddr _⟩ (immD_eq w)
    rw [hexec, execRvc, hop]
    rfl

theorem quadrant1_accesses (hcomp : isCompressed w = true) {i : Inst}
    (hq : field (w.setWidth 16) 0 2 = 0b01) (h : expand1 (w.setWidth 16) = some i) :
    effectiveAddr t.core.simple w =
        (i.effect 2 t.core.simple.gpr t.core.simple.currentProgramCounter).addr ∧
      Accesses w t (i.effect 2 t.core.simple.gpr t.core.simple.currentProgramCounter) := by
  unfold expand1 at h
  dsimp only at h
  split at h
  case h_9 => cases h
  all_goals
    rename_i hf
    obtain ⟨hop, hexec, haddr⟩ := rvc_code (β := β) hcomp hq hf
  · cases h
    exact ⟨haddr _, trivial⟩
  · split at h
    · cases h
    · cases h
      exact ⟨haddr _, trivial⟩
  · cases h
    exact ⟨haddr _, trivial⟩
  · split at h
    · split at h
      · cases h
      · cases h
        exact ⟨haddr _, trivial⟩
    · split at h
      · cases h
      · cases h
        exact ⟨haddr _, trivial⟩
  · split at h
    case h_5 => cases h
    case h_4 =>
      obtain ⟨j, -, rfl⟩ := Option.map_eq_some_iff.mp h
      exact ⟨haddr _, trivial⟩
    all_goals
      cases h
      exact ⟨haddr _, trivial⟩
  all_goals
    cases h
    exact ⟨haddr _, trivial⟩

theorem quadrant2_accesses (hin : t.core.InRange) (hcomp : isCompressed w = true) {i : Inst}
    (hq : field (w.setWidth 16) 0 2 = 0b10) (h : expand2 (w.setWidth 16) = some i) :
    effectiveAddr t.core.simple w =
        (i.effect 2 t.core.simple.gpr t.core.simple.currentProgramCounter).addr ∧
      Accesses w t (i.effect 2 t.core.simple.gpr t.core.simple.currentProgramCounter) := by
  unfold expand2 at h
  dsimp only at h
  split at h
  case h_7 => cases h
  all_goals
    rename_i hf
    obtain ⟨hop, hexec, haddr⟩ := rvc_code (β := β) hcomp hq hf
  · cases h
    exact ⟨haddr _, trivial⟩
  · split at h
    · cases h
    · cases h
      rw [← rd_eq]
      refine CAccess.load hin .word ⟨?_, haddr _⟩ (immLwsp_eq w)
      rw [hexec, execRvc, hop]
      rfl
  · split at h
    · cases h
    · cases h
      rw [← rd_eq]
      refine CAccess.load hin .double ⟨?_, haddr _⟩ (immLdsp_eq w)
      rw [hexec, execRvc, hop]
      rfl
  · unfold expandCR at h
    dsimp only at h
    split at h
    · split at h
      · split at h
        · cases h
        · cases h
          exact ⟨haddr _, trivial⟩
      · cases h
        exact ⟨haddr _, trivial⟩
    · split at h
      · split at h
        · cases h
          exact ⟨haddr _, trivial⟩
        · cases h
          exact ⟨haddr _, trivial⟩
      · cases h
        exact ⟨haddr _, trivial⟩
  · cases h
    rw [← rs2_eq]
    refine CAccess.store hin .word ⟨?_, haddr _⟩ (immSwsp_eq w)
    rw [hexec, execRvc, hop]
    rfl
  · cases h
    rw [← rs2_eq]
    refine CAccess.store hin .double ⟨?_, haddr _⟩ (immSdsp_eq w)
    rw [hexec, execRvc, hop]
    rfl

/-- The address of a decoded instruction, and its code where it has one. -/
theorem decoded_accesses (hin : t.core.InRange) {len : BitVec 64} {i : Inst}
    (h : decode w = some (len, i)) :
    effectiveAddr t.core.simple w =
        (i.effect len t.core.simple.gpr t.core.simple.currentProgramCounter).addr ∧
      Accesses w t (i.effect len t.core.simple.gpr t.core.simple.currentProgramCounter) := by
  unfold decode at h
  split at h
  · obtain ⟨b, hb, hi⟩ := Option.map_eq_some_iff.mp h
    cases hi
    have hbase := base_accesses hin b
    rw [BaseInst.encode_of_decode hb] at hbase
    exact hbase
  · obtain ⟨j, hj, hi⟩ := Option.map_eq_some_iff.mp h
    cases hi
    have hcomp := isCompressed_of_expand w hj
    unfold expand at hj
    split at hj
    · rename_i hq
      exact quadrant0_accesses hin hcomp hq hj
    · rename_i hq
      exact quadrant1_accesses hcomp hq hj
    · rename_i hq
      exact quadrant2_accesses hin hcomp hq hj
    · cases hj

end Memory

/-! ## The board -/

/-- The contexts, the one whose turn it is, and main memory. -/
structure Board where
  ctx : Fin nrCtx → MiniCPUCtx
  current : Fin nrCtx
  mem : Memory 64

/-- The context of a number. -/
def ctxNumber (v : BitVec 64) : Fin nrCtx := ⟨v.toNat % nrCtx, Nat.mod_lt _ (by decide)⟩

theorem toNat_ofCtx (i : Fin nrCtx) : (BitVec.ofNat 64 i.val).toNat = i.val := by
  rw [BitVec.toNat_ofNat]
  exact Nat.mod_eq_of_lt (Nat.lt_trans i.isLt (by decide))

namespace Board

/-- The hart whose turn it is. -/
def hart (b : Board) : Hart where
  x := (b.ctx b.current).gpr
  pc := (b.ctx b.current).currentProgramCounter
  mem := b.mem

/-- The board behind a step of that hart. -/
def moved (b : Board) (h : Hart) : Board :=
  { b with
    ctx := fun i => if i = b.current then ⟨h.x, h.pc⟩ else b.ctx i
    mem := h.mem }

/-- The effect of an instruction. The context register is read as the number of the current
context; a number stored to it gives the turn to that context. What is stored to the output
register leaves the board. -/
def perform (space : AddressSpace) (len : BitVec 64) (b : Board) (e : Effect) : Option Board :=
  match e with
  | .load rd addr width _ =>
    if addr = ctxIdReg then
      if width = .double then some (b.moved { b.hart with
        x := setReg b.hart.x rd (BitVec.ofNat 64 b.current.val)
        pc := b.hart.pc + len })
      else none
    else if addr = putcReg then none
    else (b.hart.perform space len e).map b.moved
  | .store addr width data =>
    if addr = ctxIdReg then
      if width = .double ∧ data.toNat < nrCtx then
        some { b.moved { b.hart with pc := b.hart.pc + len } with current := ctxNumber data }
      else none
    else if addr = putcReg then
      if width = .word then some (b.moved { b.hart with pc := b.hart.pc + len }) else none
    else (b.hart.perform space len e).map b.moved
  | _ => (b.hart.perform space len e).map b.moved

def step (space : AddressSpace) (b : Board) : Option Board :=
  (b.hart.fetch space).bind fun i => b.perform space i.1 (i.2.effect i.1 b.hart.x b.hart.pc)

/-- The board after `n` steps. -/
def run (space : AddressSpace) (n : Nat) (b : Board) : Option Board := steps (step space) n b

/-- What an effect does that touches neither of the two registers. -/
theorem perform_far {space : AddressSpace} {len : BitVec 64} {b b' : Board} {e : Effect}
    (hfar : ∀ a, e.addr = some a → Far a) (h : b.perform space len e = some b') :
    ∃ h', b.hart.perform space len e = some h' ∧ b.moved h' = b' := by
  unfold perform at h
  split at h
  · obtain ⟨hctx, hputc⟩ := hfar _ rfl
    rw [if_neg hctx, if_neg hputc] at h
    exact Option.map_eq_some_iff.mp h
  · obtain ⟨hctx, hputc⟩ := hfar _ rfl
    rw [if_neg hctx, if_neg hputc] at h
    exact Option.map_eq_some_iff.mp h
  · exact Option.map_eq_some_iff.mp h

end Board

/-! ## Steps at other addresses -/

section Far

variable {δ : Type} [SlaveIOI δ] {m : Machine (AddrBus δ)} {space : AddressSpace} {b b' : Board}
  {P : Simple.Machine (AddrBus δ) → Memory 64 → Prop}

/-- The machine shows this board. -/
structure ShowsBoard (P : Simple.Machine (AddrBus δ) → Memory 64 → Prop) (m : Machine (AddrBus δ))
    (b : Board) : Prop where
  ctx : m.core.ctx = b.ctx
  current : m.core.currentCtx = BitVec.ofNat 64 b.current.val
  switchCtx : m.core.switchCtx = false
  mem : P m.simple b.mem
  undisturbed : Undisturbed m.core.simple

omit [SlaveIOI δ] in
theorem ShowsBoard.toNat_current (hs : ShowsBoard P m b) :
    m.core.currentCtx.toNat = b.current.val := by
  rw [hs.current, toNat_ofCtx]

omit [SlaveIOI δ] in
theorem ShowsBoard.inRange (hs : ShowsBoard P m b) : m.core.InRange := by
  unfold RV64Core.InRange
  rw [hs.toNat_current]
  exact b.current.isLt

omit [SlaveIOI δ] in
theorem ShowsBoard.ctxIndex (hs : ShowsBoard P m b) : m.core.ctxIndex = b.current :=
  ctxIndex_eq hs.toNat_current

omit [SlaveIOI δ] in
theorem ShowsBoard.shows (hs : ShowsBoard P m b) : Shows P m.simple b.hart where
  x := by
    change (m.core.ctx m.core.ctxIndex).gpr = _
    rw [hs.ctxIndex, hs.ctx]
    rfl
  pc := by
    change (m.core.ctx m.core.ctxIndex).currentProgramCounter = _
    rw [hs.ctxIndex, hs.ctx]
    rfl
  mem := hs.mem

/-- A step of the hart that touches neither of the two registers. -/
theorem far_step (hserves : Serves space P) (hs : ShowsBoard P m b) (hzero : b.hart.x 0 = 0)
    (hjump : Faithful b.hart) {len : BitVec 64} {i : Inst}
    (hfetch : b.hart.fetch space = some (len, i))
    (hfar : ∀ a, (i.effect len b.hart.x b.hart.pc).addr = some a → Far a) {h' : Hart}
    (hperf : b.hart.perform space len (i.effect len b.hart.x b.hart.pc) = some h') :
    ∃ n, step m = .ok () n ∧ ShowsBoard P n (b.moved h') := by
  have hshows := hs.shows
  have hstep : b.hart.step space = some h' := by
    unfold Hart.step
    rw [hfetch]
    exact hperf
  obtain ⟨⟨heven, ha⟩, hdecode⟩ := Option.ite_none_right_eq_some.mp hfetch
  obtain ⟨hword, -⟩ := fetchedWord_shows hserves hshows hs.undisturbed heven ha
  have hinst : fetchedInst m.simple = some (word b.hart.mem b.hart.pc 4) := by
    obtain ⟨-, u, hu⟩ := Conformance.fetchedWord_some hword
    unfold Conformance.fetch at hu
    unfold fetchedInst
    rw [hu]
  obtain ⟨t, ht, hcore, htshows, htraps⟩ :=
    hart_step hserves hshows hs.undisturbed hzero hjump hstep
  have hstays : ∀ inst, fetchedInst m.simple = some inst → StaysFar m.core.simple inst := by
    intro inst hi a haddr
    rw [hinst] at hi
    cases hi
    rw [(decoded_accesses hs.inRange hdecode).1] at haddr
    have hx : m.core.simple.gpr = b.hart.x := hshows.x
    have hpc : m.core.simple.currentProgramCounter = b.hart.pc := hshows.pc
    rw [hx, hpc] at haddr
    exact hfar a haddr
  obtain ⟨n, hn, hview, hstay⟩ :=
    followsAt_step hs.inRange hs.switchCtx hstays () t ht (congrArg List.length htraps) trivial
  have hindex : n.core.ctxIndex = b.current := by
    rw [ctxIndex_congr hstay.currentCtx]
    exact hs.ctxIndex
  have hsimple : n.core.simple = t.core := congrArg Simple.Machine.core hview
  refine ⟨n, hn, funext fun j => ?_, hstay.currentCtx.trans hs.current,
    hstay.switchCtx.trans hs.switchCtx, ?_, ?_⟩
  · unfold Board.moved
    dsimp only
    by_cases hj : j = b.current
    · rw [if_pos hj, hj, ← hindex]
      have hx : (n.core.ctx n.core.ctxIndex).gpr = h'.x :=
        (congrArg Simple.RV64Core.gpr hsimple).trans htshows.x
      have hpc : (n.core.ctx n.core.ctxIndex).currentProgramCounter = h'.pc :=
        (congrArg Simple.RV64Core.currentProgramCounter hsimple).trans htshows.pc
      rw [← hx, ← hpc]
    · rw [if_neg hj, hstay.others j (by rw [hs.ctxIndex]; exact hj), hs.ctx]
  · have hview : n.simple = t := hview
    rw [hview]
    exact htshows.mem
  · rw [hsimple, hcore]
    exact hs.undisturbed.retired _ _

end Far

/-! ## Steps at the two registers -/

section Special

variable {δ : Type} [SlaveIOI δ] {m u : Machine (AddrBus δ)} {space : AddressSpace} {b b' : Board}
  {P : Simple.Machine (AddrBus δ) → Memory 64 → Prop} {w : BitVec 32} {l : StepLocals}

theorem decodeExec_eq (w : BitVec 32) : (decodeExec w : Emu (AddrBus δ) StepLocals) = (do
    emit (.fetched w)
    let flags ← execute w
    return { inst := w, isCompressedInst := isCompressed w, flags := flags }) := by
  unfold decodeExec execute
  cases isCompressed w <;> rfl

omit [SlaveIOI δ] in
theorem core_run (s : Machine (AddrBus δ)) : getCore s = .ok s.core s := rfl

/-- The machine when a step decodes a word. -/
def decodingMachine (m : Machine (AddrBus δ)) (w : BitVec 32) : Machine (AddrBus δ) :=
  { m with
    core := m.core.sampled
    mmu := (Conformance.decoding m.simple w).mmu
    bus := (Conformance.decoding m.simple w).bus
    trace := (Conformance.decoding m.simple w).trace }

theorem decodingMachine_simple (hw : Conformance.fetchedWord m.simple = some w) :
    (decodingMachine m w).simple = Conformance.decoding m.simple w := by
  have hcore : (Conformance.decoding m.simple w).core = m.core.simple.sampled :=
    (Conformance.decoding_silent hw).1
  change { Conformance.decoding m.simple w with core := m.core.simple.sampled } = _
  rw [← hcore]

/-- A step that fetches a word runs its code and ends. -/
theorem step_eq (hin : m.core.InRange) (hw : Conformance.fetchedWord m.simple = some w) :
    step m = (do
      let flags ← execute w
      endStep { inst := w, isCompressedInst := isCompressed w, flags := flags })
        (decodingMachine m w) := by
  obtain ⟨hint, v, hfetch⟩ := Conformance.fetchedWord_some hw
  have heven := Conformance.fetch_even hfetch
  have hint : m.core.sampled.intToRaise = none := hint
  have hsampled : (modifyCore (·.sampled) : Emu (AddrBus δ) Unit) m =
      .ok () { m with core := m.core.sampled } := rfl
  have hpre : preExec m = .ok () { m with core := m.core.sampled } := by
    unfold preExec
    rw [bind_of_ok hsampled, bind_of_ok (core_run _)]
    simp only [hint]
    rfl
  have hin' : ({ m with core := m.core.sampled } : Machine (AddrBus δ)).core.InRange := hin
  have hclear : ¬ m.core.sampled.needTrap = true := Bool.false_ne_true
  have hodd : ¬ m.core.simple.currentProgramCounter % 2 ≠ 0 := fun hne => hne heven
  have hok : ¬ VAddrFeedback.accessOk ≠ .accessOk := fun hne => hne rfl
  have hcall : sharedCall (vaddrInstFetchMMUAPI m.core.simple.currentProgramCounter 4)
      { m with core := m.core.sampled } = .ok (.accessOk, w)
        { m with core := m.core.sampled, mmu := v.mmu, bus := v.bus, trace := v.trace } := by
    have hrun : vaddrInstFetchMMUAPI m.core.simple.currentProgramCounter 4
        ({ m with core := m.core.sampled } : Machine (AddrBus δ)).simple = _ := hfetch
    unfold sharedCall
    rw [hrun]
  have hfetchDecode : fetchDecodeExec { m with core := m.core.sampled } =
      decodeExec w
        { m with core := m.core.sampled, mmu := v.mmu, bus := v.bus, trace := v.trace } := by
    unfold fetchDecodeExec
    rw [bind_of_ok (getCtx_run hin')]
    dsimp only
    have hpc : m.core.sampled.simple.currentProgramCounter =
        m.core.simple.currentProgramCounter := rfl
    rw [hpc, if_neg hodd, bind_of_ok hcall]
    exact congrFun (if_neg hok) _
  have hrest : (fetchDecodeExec >>= endStep) { m with core := m.core.sampled } =
      (decodeExec w >>= endStep)
        { m with core := m.core.sampled, mmu := v.mmu, bus := v.bus, trace := v.trace } := by
    rw [run_bind, run_bind, hfetchDecode]
  have hemit : emit (.fetched w)
      { m with core := m.core.sampled, mmu := v.mmu, bus := v.bus, trace := v.trace } =
        .ok () (decodingMachine m w) := by
    unfold decodingMachine Conformance.decoding
    rw [hfetch]
    rfl
  unfold step
  rw [bind_of_ok hpre, bind_of_ok (core_run _), if_neg hclear]
  refine hrest.trans ?_
  rw [decodeExec_eq]
  simp only [bind_assoc, pure_bind]
  rw [bind_of_ok hemit]

omit [SlaveIOI δ] in
/-- The end of an instruction that falls through. -/
theorem endStep_run (hin : u.core.InRange) (hclear : u.core.needTrap = false)
    (hblank : statusBlankZero u.core.status = true) (hflags : l.flags = retired) :
    endStep l u = .ok () { u with
      core := (RV64Core.retire { u.core with ctx := advanced u.core l }).switched
      globalTick := u.globalTick + 1 } := by
  have hlegal : l.flags.isInstrIllegal = false := by rw [hflags]; rfl
  have hset : l.flags.isNewPCSet = false := by rw [hflags]; rfl
  have hadvance := (advancePC_run (l := l) hclear hset).trans (modifyCtx_run hin _)
  have hbefore : beforeSwitch l u =
      .ok () { u with core := RV64Core.retire { u.core with ctx := advanced u.core l } } := by
    unfold beforeSwitch
    rw [bind_of_ok hadvance]
    change (if statusBlankZero u.core.status = true then pure () else throw _ : Emu _ Unit) _ = _
    rw [if_pos hblank]
    rfl
  rw [endStep_eq hlegal, bind_of_ok hbefore]
  rfl

/-- The machine when the code of an instruction has ended that falls through: `c` are the contexts,
and `target` is the one whose turn is next. -/
structure AtEnd (P : Simple.Machine (AddrBus δ) → Memory 64 → Prop) (b : Board)
    (u : Machine (AddrBus δ)) (c : Fin nrCtx → MiniCPUCtx) (target : Fin nrCtx) : Prop where
  ctx : u.core.ctx = c
  current : u.core.currentCtx = BitVec.ofNat 64 b.current.val
  target : (if u.core.switchCtx then u.core.newCtx else u.core.currentCtx) =
    BitVec.ofNat 64 target.val
  needTrap : u.core.needTrap = false
  mem : P u.simple b.mem
  undisturbed : Undisturbed u.core.simple

omit [SlaveIOI δ] in
theorem switched_shows (c : RV64Core) :
    SameView c.simple c.switched.simple ∧
      (Undisturbed c.simple → Undisturbed c.switched.simple) := by
  unfold RV64Core.switched
  split
  · exact ⟨⟨rfl, rfl, rfl⟩, fun h => h.congr rfl rfl rfl rfl⟩
  · exact ⟨⟨rfl, rfl, rfl⟩, fun h => h⟩

theorem AtEnd.shows (hserves : Serves space P) {c : Fin nrCtx → MiniCPUCtx} {target : Fin nrCtx}
    (h : AtEnd P b u c target) (hflags : l.flags = retired) :
    ∃ n, endStep l u = .ok () n ∧ ShowsBoard P n
      { ctx := fun i => if i = b.current then { c i with
          currentProgramCounter :=
            (c i).currentProgramCounter + (if l.isCompressedInst then 2 else 4) } else c i
        current := target
        mem := b.mem } := by
  have hcurrent : u.core.currentCtx.toNat = b.current.val := by
    rw [h.current, toNat_ofCtx]
  have hin : u.core.InRange := by
    unfold RV64Core.InRange
    rw [hcurrent]
    exact b.current.isLt
  obtain ⟨hview, hundisturbed⟩ :=
    switched_shows (RV64Core.retire { u.core with ctx := advanced u.core l })
  refine ⟨_, endStep_run hin h.needTrap h.undisturbed.status hflags, ?_, ?_, ?_, ?_, ?_⟩
  · change (RV64Core.switched _).ctx = _
    rw [switched_ctx]
    unfold RV64Core.retire advanced
    dsimp only
    rw [ctxIndex_eq hcurrent, h.ctx]
  · change (RV64Core.switched _).currentCtx = _
    rw [switched_currentCtx]
    exact h.target
  · exact switched_switchCtx _
  · exact hserves.congr u.simple b.mem _ u.trace h.mem
      ⟨hview.status, hview.satp, hview.nextPrivMode⟩
  · exact hundisturbed (h.undisturbed.congr rfl rfl rfl rfl)

/-- A step whose code falls through. -/
theorem step_ends_at (hserves : Serves space P) (hs : ShowsBoard P m b)
    (hw : Conformance.fetchedWord m.simple = some w)
    (hmem : P (Conformance.decoding m.simple w) b.mem)
    {c : Fin nrCtx → MiniCPUCtx} {target : Fin nrCtx}
    (hcode : ∀ t : Machine (AddrBus δ), t.core = m.core.sampled → P t.simple b.mem →
      ∃ u, execute w t = .ok retired u ∧ AtEnd P b u c target) :
    ∃ n, step m = .ok () n ∧ ShowsBoard P n
      { ctx := fun i => if i = b.current then { c i with
          currentProgramCounter :=
            (c i).currentProgramCounter + (if isCompressed w then 2 else 4) } else c i
        current := target
        mem := b.mem } := by
  have hstart : P (decodingMachine m w).simple b.mem := by
    rw [decodingMachine_simple hw]
    exact hmem
  obtain ⟨u, hrun, hend⟩ := hcode (decodingMachine m w) rfl hstart
  obtain ⟨n, hn, hshows⟩ := hend.shows hserves (l := ⟨w, isCompressed w, retired⟩) rfl
  refine ⟨n, ?_, hshows⟩
  rw [step_eq hs.inRange hw, bind_of_ok hrun]
  exact hn

omit [SlaveIOI δ] in
/-- The machine that decodes is one of the board too. -/
theorem atEnd_start (hs : ShowsBoard P m b) {t : Machine (AddrBus δ)}
    (hcore : t.core = m.core.sampled) (hmem : P t.simple b.mem) :
    AtEnd P b t b.ctx b.current ∧ t.core.InRange ∧ t.core.ctxIndex = b.current := by
  have hin : t.core.InRange := by
    rw [hcore]
    exact hs.inRange
  have hindex : t.core.ctxIndex = b.current := by
    rw [hcore]
    exact hs.ctxIndex
  refine ⟨⟨?_, ?_, ?_, ?_, hmem, ?_⟩, hin, hindex⟩
  all_goals rw [hcore]
  · exact hs.ctx
  · exact hs.current
  · have hclear : m.core.sampled.switchCtx = false := hs.switchCtx
    rw [hclear]
    exact hs.current
  · rfl
  · exact hs.undisturbed.congr rfl rfl rfl rfl

/-- A register of the current context. -/
theorem setGPR_run (hserves : Serves space P) {t : Machine (AddrBus δ)}
    {c : Fin nrCtx → MiniCPUCtx} {target : Fin nrCtx} (h : AtEnd P b t c target)
    (hin : t.core.InRange) (hindex : t.core.ctxIndex = b.current) (rd : Reg)
    (value : BitVec 64) : ∃ u, setGPR rd value t = .ok () u ∧ AtEnd P b u
      (fun i => if i = b.current then { c i with gpr := setReg (c i).gpr rd value } else c i)
      target := by
  unfold setGPR
  by_cases hrd : rd = 0
  · rw [if_pos hrd, hrd]
    refine ⟨t, rfl, ?_, h.current, h.target, h.needTrap, h.mem, h.undisturbed⟩
    rw [h.ctx]
    funext i
    rw [setReg_zero, ite_self]
  · rw [if_neg hrd, modifyCtx_run hin]
    refine ⟨_, rfl, ?_, h.current, h.target, h.needTrap, ?_, ?_⟩
    · dsimp only
      rw [hindex, h.ctx]
      funext i
      by_cases hi : i = b.current
      · rw [if_pos hi, if_pos hi]
        congr 1
        funext x
        unfold setReg
        by_cases hx : x = rd
        · rw [if_pos hx, if_pos ⟨hx, hx ▸ hrd⟩]
        · rw [if_neg hx, if_neg fun hc => hx hc.1]
      · rw [if_neg hi, if_neg hi]
    · exact hserves.congr t.simple b.mem _ t.trace h.mem ⟨rfl, rfl, rfl⟩
    · exact h.undisturbed.congr rfl rfl rfl rfl

/-! What the two registers are for the code of an access. -/

theorem memRead_ctxId (t : Machine (AddrBus δ)) :
    memRead ctxIdReg 8 t = .ok (some t.core.currentCtx) t := by
  have hsame : t.core.currentCtx.setWidth (8 * 8) = t.core.currentCtx := BitVec.setWidth_eq _
  have hrun : memRead ctxIdReg 8 t = .ok (some (t.core.currentCtx.setWidth (8 * 8))) t := rfl
  rw [hrun, hsame]

theorem memWrite_ctxId (t : Machine (AddrBus δ)) (value : BitVec 64) :
    memWrite ctxIdReg 8 value t = .ok () { t with
      core := { t.core with newCtx := value, switchCtx := true }
      ctxStores := value :: t.ctxStores } := rfl

theorem memWrite_putc (t : Machine (AddrBus δ)) (value : BitVec 64) :
    memWrite putcReg 4 value t = .ok () { t with
      core := { t.core with ch := value.setWidth 32 }
      console := value.setWidth 32 :: t.console } := rfl

/-- A register keeps all of a double word. -/
theorem extend_double (unsigned : Bool) (v : BitVec 64) : extend unsigned v = v := by
  cases unsigned with
  | true => exact BitVec.setWidth_eq v
  | false => exact BitVec.signExtend_eq v

/-- The word at the PC, and what its code accesses. -/
theorem fetched_accesses (hserves : Serves space P) (hs : ShowsBoard P m b) {len : BitVec 64}
    {i : Inst} (hfetch : b.hart.fetch space = some (len, i)) :
    ∃ w, Conformance.fetchedWord m.simple = some w ∧
      P (Conformance.decoding m.simple w) b.mem ∧ len = (if isCompressed w then 2 else 4) ∧
      ∀ t : Machine (AddrBus δ), t.core = m.core.sampled →
        Accesses w t (i.effect len b.hart.x b.hart.pc) := by
  obtain ⟨⟨heven, ha⟩, hdecode⟩ := Option.ite_none_right_eq_some.mp hfetch
  obtain ⟨hw, hmem⟩ := fetchedWord_shows hserves hs.shows hs.undisturbed heven ha
  generalize word b.hart.mem b.hart.pc 4 = w at hdecode hw hmem
  refine ⟨w, hw, hmem, decoded_length hdecode, fun t ht => ?_⟩
  have hx : t.core.simple.gpr = b.hart.x := by
    rw [ht]
    exact hs.shows.x
  have hpc : t.core.simple.currentProgramCounter = b.hart.pc := by
    rw [ht]
    exact hs.shows.pc
  have hin : t.core.InRange := by
    rw [ht]
    exact hs.inRange
  rw [← hx, ← hpc]
  exact (decoded_accesses hin hdecode).2

/-- Behind the code of an instruction the current context has these registers. -/
def withRegisters (b : Board) (x : Reg → BitVec 64) : Fin nrCtx → MiniCPUCtx :=
  fun i => if i = b.current then { b.ctx i with gpr := x } else b.ctx i

theorem withRegisters_self (b : Board) : withRegisters b b.hart.x = b.ctx := by
  funext i
  unfold withRegisters
  by_cases hi : i = b.current
  · rw [if_pos hi, hi]
    rfl
  · rw [if_neg hi]

/-- A step whose code leaves the registers `x` and gives the turn to `target`. -/
theorem step_moves (hserves : Serves space P) (hs : ShowsBoard P m b)
    (hw : Conformance.fetchedWord m.simple = some w)
    (hmem : P (Conformance.decoding m.simple w) b.mem)
    {len : BitVec 64} (hlen : len = if isCompressed w then 2 else 4) {x : Reg → BitVec 64}
    (target : Fin nrCtx)
    (hcode : ∀ t : Machine (AddrBus δ), t.core = m.core.sampled → P t.simple b.mem →
      ∃ u, execute w t = .ok retired u ∧ AtEnd P b u (withRegisters b x) target) :
    ∃ n, step m = .ok () n ∧ ShowsBoard P n
      { b.moved { b.hart with x := x, pc := b.hart.pc + len } with current := target } := by
  obtain ⟨n, hn, hshows⟩ := step_ends_at hserves hs hw hmem hcode
  rw [← hlen] at hshows
  refine ⟨n, hn, hshows.ctx.trans (funext fun i => ?_), hshows.current, hshows.switchCtx,
    hshows.mem, hshows.undisturbed⟩
  unfold withRegisters Board.moved Board.hart
  dsimp only
  by_cases hi : i = b.current
  · rw [if_pos hi, if_pos hi, if_pos hi, hi]
  · rw [if_neg hi, if_neg hi, if_neg hi]

/-- A step of the hart that reads the number of its context. -/
theorem ctxId_load (hserves : Serves space P) (hs : ShowsBoard P m b)
    (hw : Conformance.fetchedWord m.simple = some w)
    (hmem : P (Conformance.decoding m.simple w) b.mem)
    {len : BitVec 64} (hlen : len = if isCompressed w then 2 else 4) {rd : Reg} {unsigned : Bool}
    (haccess : ∀ t : Machine (AddrBus δ), t.core = m.core.sampled →
      Accesses w t (.load rd ctxIdReg .double unsigned)) :
    ∃ n, step m = .ok () n ∧ ShowsBoard P n (b.moved { b.hart with
      x := setReg b.hart.x rd (BitVec.ofNat 64 b.current.val)
      pc := b.hart.pc + len }) := by
  refine step_moves hserves hs hw hmem hlen b.current fun t hcore hstarts => ?_
  obtain ⟨hstart, hin, hindex⟩ := atEnd_start hs hcore hstarts
  obtain ⟨u, hu, hend⟩ := setGPR_run hserves hstart hin hindex rd (BitVec.ofNat 64 b.current.val)
  have hrun : execute w t = loadGPR ctxIdReg 8 (extend unsigned) rd t := haccess t hcore
  unfold loadGPR at hrun
  rw [bind_of_ok (memRead_ctxId t)] at hrun
  dsimp only at hrun
  rw [extend_double, hstart.current, bind_of_ok hu] at hrun
  refine ⟨u, hrun, hend.ctx.trans (funext fun i => ?_), hend.current, hend.target, hend.needTrap,
    hend.mem, hend.undisturbed⟩
  unfold withRegisters
  by_cases hi : i = b.current
  · rw [if_pos hi, if_pos hi, hi]
    rfl
  · rw [if_neg hi, if_neg hi]

/-- A step of the hart that gives the turn to another. -/
theorem ctxId_store (hserves : Serves space P) (hs : ShowsBoard P m b)
    (hw : Conformance.fetchedWord m.simple = some w)
    (hmem : P (Conformance.decoding m.simple w) b.mem)
    {len : BitVec 64} (hlen : len = if isCompressed w then 2 else 4) {data : BitVec 64}
    (hdata : data.toNat < nrCtx)
    (haccess : ∀ t : Machine (AddrBus δ), t.core = m.core.sampled →
      Accesses w t (.store ctxIdReg .double data)) :
    ∃ n, step m = .ok () n ∧ ShowsBoard P n
      { b.moved { b.hart with pc := b.hart.pc + len } with current := ctxNumber data } := by
  refine step_moves hserves hs hw hmem hlen (ctxNumber data) fun t hcore hstarts => ?_
  obtain ⟨hstart, -, -⟩ := atEnd_start hs hcore hstarts
  have hrun : execute w t = (do
    memWrite ctxIdReg 8 data
    return retired : Emu (AddrBus δ) ExecFlags) t := haccess t hcore
  rw [bind_of_ok (memWrite_ctxId t data)] at hrun
  have hnumber : data = BitVec.ofNat 64 (ctxNumber data).val := by
    refine BitVec.eq_of_toNat_eq ?_
    rw [toNat_ofCtx]
    exact (Nat.mod_eq_of_lt hdata).symm
  exact ⟨_, hrun, hstart.ctx.trans (withRegisters_self b).symm, hstart.current, hnumber,
    hstart.needTrap, hserves.congr t.simple b.mem _ t.trace hstarts ⟨rfl, rfl, rfl⟩,
    hstart.undisturbed.congr rfl rfl rfl rfl⟩

/-- A step of the hart that puts a character out. -/
theorem putc_store (hserves : Serves space P) (hs : ShowsBoard P m b)
    (hw : Conformance.fetchedWord m.simple = some w)
    (hmem : P (Conformance.decoding m.simple w) b.mem)
    {len : BitVec 64} (hlen : len = if isCompressed w then 2 else 4) {data : BitVec 64}
    (haccess : ∀ t : Machine (AddrBus δ), t.core = m.core.sampled →
      Accesses w t (.store putcReg .word data)) :
    ∃ n, step m = .ok () n ∧ ShowsBoard P n (b.moved { b.hart with pc := b.hart.pc + len }) := by
  refine step_moves hserves hs hw hmem hlen b.current fun t hcore hstarts => ?_
  obtain ⟨hstart, -, -⟩ := atEnd_start hs hcore hstarts
  have hrun : execute w t = (do
    memWrite putcReg 4 data
    return retired : Emu (AddrBus δ) ExecFlags) t := haccess t hcore
  rw [bind_of_ok (memWrite_putc t data)] at hrun
  exact ⟨_, hrun, hstart.ctx.trans (withRegisters_self b).symm, hstart.current, hstart.target,
    hstart.needTrap, hserves.congr t.simple b.mem _ t.trace hstarts ⟨rfl, rfl, rfl⟩,
    hstart.undisturbed.congr rfl rfl rfl rfl⟩

end Special

/-! ## Steps and runs -/

section Runs

variable {δ : Type} [SlaveIOI δ] {m n : Machine (AddrBus δ)} {space : AddressSpace}
  {b b' : Board} {P : Simple.Machine (AddrBus δ) → Memory 64 → Prop}

/-- A step of the board is one of the MiniCPU. -/
theorem board_step (hserves : Serves space P) (hs : ShowsBoard P m b) (hzero : b.hart.x 0 = 0)
    (hjump : Faithful b.hart) (hstep : b.step space = some b') :
    ∃ n, step m = .ok () n ∧ ShowsBoard P n b' := by
  obtain ⟨⟨len, i⟩, hfetch, hperf⟩ := Option.bind_eq_some_iff.mp hstep
  by_cases hfar : ∀ a, (i.effect len b.hart.x b.hart.pc).addr = some a → Far a
  · obtain ⟨h', hown, rfl⟩ := Board.perform_far hfar hperf
    exact far_step hserves hs hzero hjump hfetch hfar hown
  obtain ⟨w, hw, hmem, hlen, haccess⟩ := fetched_accesses hserves hs hfetch
  dsimp only at hperf
  generalize i.effect len b.hart.x b.hart.pc = e at hfar haccess hperf
  unfold Board.perform at hperf
  split at hperf
  · rename_i rd addr width unsigned
    split at hperf
    · rename_i haddr
      subst haddr
      obtain ⟨rfl, hb⟩ := Option.ite_none_right_eq_some.mp hperf
      cases hb
      exact ctxId_load hserves hs hw hmem hlen haccess
    · rename_i hctx
      split at hperf
      · cases hperf
      · rename_i hputc
        refine absurd (fun a ha => ?_) hfar
        cases ha
        exact ⟨hctx, hputc⟩
  · rename_i addr width data
    split at hperf
    · rename_i haddr
      subst haddr
      obtain ⟨⟨rfl, hdata⟩, hb⟩ := Option.ite_none_right_eq_some.mp hperf
      cases hb
      exact ctxId_store hserves hs hw hmem hlen hdata haccess
    · rename_i hctx
      split at hperf
      · rename_i haddr
        subst haddr
        obtain ⟨rfl, hb⟩ := Option.ite_none_right_eq_some.mp hperf
        cases hb
        exact putc_store hserves hs hw hmem hlen haccess
      · rename_i hputc
        refine absurd (fun a ha => ?_) hfar
        cases ha
        exact ⟨hctx, hputc⟩
  · rename_i hload hstore
    refine absurd (fun a ha => ?_) hfar
    cases e with
    | load rd addr width unsigned => exact absurd rfl (hload rd addr width unsigned)
    | store addr width data => exact absurd rfl (hstore addr width data)
    | write | jump | breakpoint => cases ha

/-- All contexts hold 0 in `x0`. -/
def ZeroRegisters (b : Board) : Prop := ∀ i, (b.ctx i).gpr 0 = 0

theorem moved_zero {h : Hart} {current : Fin nrCtx} (hb : ZeroRegisters b) (hh : h.x 0 = 0) :
    ZeroRegisters { b.moved h with current := current } := by
  intro i
  change (if i = b.current then (⟨h.x, h.pc⟩ : MiniCPUCtx) else b.ctx i).gpr 0 = 0
  by_cases hi : i = b.current
  · rw [if_pos hi]
    exact hh
  · rw [if_neg hi]
    exact hb i

theorem perform_zero {len : BitVec 64} {e : Effect} (hb : ZeroRegisters b)
    (hperf : b.perform space len e = some b') : ZeroRegisters b' := by
  have hown : ∀ e, (b.hart.perform space len e).map b.moved = some b' → ZeroRegisters b' := by
    intro e he
    obtain ⟨h', hh, rfl⟩ := Option.map_eq_some_iff.mp he
    exact moved_zero hb (Hart.perform_zero hh (hb _))
  unfold Board.perform at hperf
  split at hperf
  · rename_i rd addr width unsigned
    split at hperf
    · obtain ⟨-, hperf⟩ := Option.ite_none_right_eq_some.mp hperf
      cases hperf
      exact moved_zero hb ((setReg_x0 ..).trans (hb _))
    · obtain ⟨-, hperf⟩ := Option.ite_none_left_eq_some.mp hperf
      exact hown _ hperf
  · split at hperf
    · obtain ⟨-, hperf⟩ := Option.ite_none_right_eq_some.mp hperf
      cases hperf
      exact moved_zero hb (hb _)
    · split at hperf
      · obtain ⟨-, hperf⟩ := Option.ite_none_right_eq_some.mp hperf
        cases hperf
        exact moved_zero hb (hb _)
      · exact hown _ hperf
  · exact hown _ hperf

theorem step_zero (hstep : b.step space = some b') (hb : ZeroRegisters b) : ZeroRegisters b' := by
  obtain ⟨i, -, hperf⟩ := Option.bind_eq_some_iff.mp hstep
  exact perform_zero hb hperf

/-- A run of `n` steps. Between two of them the interrupt inputs and the devices may change, main
memory does not. -/
inductive Runs (m : Machine (AddrBus δ)) : Nat → Machine (AddrBus δ) → Prop
  | start : Runs m 0 m
  | environment {k : Nat} {n : Machine (AddrBus δ)} (hrun : Runs m k n) (intStatus : IntStatus)
      (bus : AddrBus δ) (kept : LoadStore.region bus = LoadStore.region n.bus) :
      Runs m k (n.withInputs intStatus bus)
  | step {k : Nat} {n u : Machine (AddrBus δ)} (hrun : Runs m k n) (hstep : step n = .ok () u) :
      Runs m (k + 1) u

/-- Steps that return make up runs. -/
theorem exists_run {last : Nat} (h : ∀ k n, Runs m k n → k < last → ∃ u, step n = .ok () u) :
    ∃ n, Runs m last n := by
  have hall : ∀ k, k ≤ last → ∃ n, Runs m k n := by
    intro k
    induction k with
    | zero => exact fun _ => ⟨m, .start⟩
    | succ k ih =>
      intro hk
      obtain ⟨n, hn⟩ := ih (Nat.le_of_succ_le hk)
      obtain ⟨u, hu⟩ := h k n hn hk
      exact ⟨u, .step hn hu⟩
  exact hall last (Nat.le_refl last)

/-- A run of the MiniCPU is behind `k` steps where the board is. -/
theorem runs_shows (hserves : Serves space P) {last k : Nat} (hs : ShowsBoard P m b)
    (hzero : ZeroRegisters b) (hlong : Board.run space last b = some b')
    (hfaithful : ∀ k bk, k < last → Board.run space k b = some bk → Faithful bk.hart)
    (hrun : Runs m k n) (hk : k ≤ last) :
    ∃ bk, Board.run space k b = some bk ∧ ShowsBoard P n bk := by
  induction hrun with
  | start => exact ⟨b, rfl, hs⟩
  | @environment _ n _ intStatus bus kept ih =>
    obtain ⟨bk, hr, hn⟩ := ih hk
    have hbus := hserves.bus n.simple bk.mem bus hn.mem kept
    exact ⟨bk, hr, hn.ctx, hn.current, hn.switchCtx,
      hserves.congr _ _ (n.withInputs intStatus bus).core.simple n.trace hbus ⟨rfl, rfl, rfl⟩,
      hn.undisturbed.congr rfl rfl rfl rfl⟩
  | step _ hstep ih =>
    obtain ⟨b₁, hr, hn⟩ := ih (Nat.le_of_succ_le hk)
    obtain ⟨b₂, hs₂, hnext⟩ := steps_next hlong hk hr
    have hz := steps_invariant (fun _ _ => step_zero) hr hzero
    obtain ⟨u, hu, hshows⟩ := board_step hserves hn (hz _) (hfaithful _ _ hk hr) hs₂
    rw [hstep] at hu
    cases hu
    exact ⟨b₂, hnext, hshows⟩

end Runs

/-- The program of `switchMachine` with 3: all contexts are at its start. -/
def switchBoard : Board where
  ctx := fun _ => ⟨fun _ => 0, 0x80000000⟩
  current := ⟨0, by decide⟩
  mem := LoadStore.contents (switchMachine 3).bus

theorem switchMachine_undisturbed :
    Undisturbed (switchMachine 3).core.simple ∧ Bare (switchMachine 3).core.simple := by
  refine undisturbed_machine rfl ?_ ?_ ?_
  all_goals decide +kernel

theorem switchBoard_shown : ShowsBoard (BareMemory sumMemory) (switchMachine 3) switchBoard where
  ctx := rfl
  current := rfl
  switchCtx := rfl
  mem := ⟨⟨rfl, rfl, rfl, rfl⟩, switchMachine_undisturbed.2⟩
  undisturbed := switchMachine_undisturbed.1

end NextEmu.MiniCPU.BoardRuns
