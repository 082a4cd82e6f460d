import NextEmu.Lib.ByteMemory
import NextEmu.Lib.RiscVCompressed
import NextEmu.Lib.RiscVEncoding

/-!
# A hart of RV64IMC

The machine of the manual as its programs see it: integer registers, a PC and memory. A
step fetches a word at the PC, decodes it and has the effect of the instruction. The machine
has no step where the manual leaves this view: an exception, an access outside the address
space of the program, or an instruction of another extension.
-/

namespace NextEmu.Lib.RiscV

open BitField ByteMemory

/-! ## Codes -/

section Codes

variable {α γ : Type} [DecidableEq γ]

/-- The operation of a list that has this code. -/
def ofCode (all : List α) (code : α → γ) (c : γ) : Option α := all.find? fun a => code a = c

theorem code_ofCode {all : List α} {code : α → γ} {c : γ} {a : α}
    (h : ofCode all code c = some a) : code a = c := by
  simpa using List.find?_some h

end Codes

def AluOp.ofFields : BitVec 7 × BitVec 3 → Option AluOp :=
  ofCode [.add, .sub, .sll, .slt, .sltu, .xor, .srl, .sra, .or, .and,
    .mul, .mulh, .mulhsu, .mulhu, .div, .divu, .rem, .remu] fun op => (op.funct7, op.funct3)

def WordOp.ofFields : BitVec 7 × BitVec 3 → Option WordOp :=
  ofCode [.add, .sub, .sll, .srl, .sra, .mul, .div, .divu, .rem, .remu]
    fun op => (op.toAlu.funct7, op.toAlu.funct3)

def ImmOp.ofField : BitVec 3 → Option ImmOp :=
  ofCode [.add, .slt, .sltu, .xor, .or, .and] fun op => op.toAlu.funct3

/-- The shifts by six bits keep five bits of `funct7` and the one above. -/
def ShiftOp.ofFields : BitVec 6 × BitVec 3 → Option ShiftOp :=
  ofCode [.sll, .srl, .sra] fun op => (op.toAlu.funct7.extractLsb' 1 6, op.toAlu.funct3)

def ShiftOp.ofWordFields : BitVec 7 × BitVec 3 → Option ShiftOp :=
  ofCode [.sll, .srl, .sra] fun op => (op.toAlu.funct7, op.toAlu.funct3)

def LoadOp.ofField : BitVec 3 → Option LoadOp :=
  ofCode [.lb, .lh, .lw, .ld, .lbu, .lhu, .lwu] LoadOp.funct3

def Width.ofField : BitVec 3 → Option Width := ofCode [.byte, .half, .word, .double] Width.funct3

def BranchOp.ofField : BitVec 3 → Option BranchOp :=
  ofCode [.eq, .ne, .lt, .ge, .ltu, .geu] BranchOp.funct3

/-! ## Instructions of four bytes -/

/-- The instructions of four bytes that touch nothing but the registers, the PC and memory. -/
inductive BaseInst
  | comp (i : Comp)
  | mem (i : MemInst)
  | jal (rd : Reg) (imm : BitVec 20)
  | jalr (rd rs1 : Reg) (imm : BitVec 12)
  | branch (op : BranchOp) (rs1 rs2 : Reg) (imm : BitVec 12)
  deriving DecidableEq, Repr

namespace BaseInst

def encode : BaseInst → BitVec 32
  | comp i => i.encode
  | mem i => i.encode
  | jal rd imm => jType imm rd 0b1101111
  | jalr rd rs1 imm => iType imm rs1 0b000 rd 0b1100111
  | branch op rs1 rs2 imm => bType imm rs2 rs1 op.funct3 0b1100011

def toInst : BaseInst → Inst
  | comp i => .comp i
  | mem (.load op rd rs1 imm) => .load op.width op.unsigned rd rs1 imm
  | mem (.store width rs1 rs2 imm) => .store width rs1 rs2 imm
  | jal rd imm => .jal rd imm
  | jalr rd rs1 imm => .jalr rd rs1 imm
  | branch op rs1 rs2 imm => .branch op rs1 rs2 imm

/-- The instruction of a word, by its major opcode. -/
def decode (w : BitVec 32) : Option BaseInst :=
  let rd := field w 7 5
  let funct3 := field w 12 3
  let rs1 := field w 15 5
  let rs2 := field w 20 5
  match field w 0 7 with
  | 0b0110111 => some (.comp (.lui rd (field w 12 20)))
  | 0b0010111 => some (.comp (.auipc rd (field w 12 20)))
  | 0b0010011 =>
    match ImmOp.ofField funct3 with
    | some op => some (.comp (.opImm op rd rs1 (field w 20 12)))
    | none => (ShiftOp.ofFields (field w 26 6, funct3)).map fun op =>
      .comp (.shiftImm op rd rs1 (field w 20 6))
  | 0b0011011 =>
    if funct3 = 0 then some (.comp (.addiw rd rs1 (field w 20 12)))
    else (ShiftOp.ofWordFields (field w 25 7, funct3)).map fun op =>
      .comp (.shiftImmW op rd rs1 rs2)
  | 0b0110011 => (AluOp.ofFields (field w 25 7, funct3)).map fun op => .comp (.reg op rd rs1 rs2)
  | 0b0111011 => (WordOp.ofFields (field w 25 7, funct3)).map fun op => .comp (.regW op rd rs1 rs2)
  | 0b0000011 => (LoadOp.ofField funct3).map fun op => .mem (.load op rd rs1 (field w 20 12))
  | 0b0100011 => (Width.ofField funct3).map fun width =>
    .mem (.store width rs1 rs2 (field w 25 7 ++ field w 7 5))
  | 0b1101111 =>
    some (.jal rd (field w 31 1 ++ field w 12 8 ++ field w 20 1 ++ field w 21 10))
  | 0b1100111 => if funct3 = 0 then some (.jalr rd rs1 (field w 20 12)) else none
  | 0b1100011 => (BranchOp.ofField funct3).map fun op =>
    .branch op rs1 rs2 (field w 31 1 ++ field w 7 1 ++ field w 25 6 ++ field w 8 4)
  | _ => none

end BaseInst

/-! ### A word and its fields -/

section Fields

variable {w : BitVec 32} {funct3 : BitVec 3} {opcode : BitVec 7}

theorem rType_fields {funct7 : BitVec 7} (h7 : field w 25 7 = funct7) (h3 : field w 12 3 = funct3)
    (hop : field w 0 7 = opcode) :
    rType funct7 (field w 20 5) (field w 15 5) funct3 (field w 7 5) opcode = w := by
  subst h7 h3 hop
  refine BitVec.eq_of_getLsbD_eq fun i hi => ?_
  simp only [rType, BitVec.getLsbD_append, BitVec.getLsbD_extractLsb']
  grind

theorem iType_fields (h3 : field w 12 3 = funct3) (hop : field w 0 7 = opcode) :
    iType (field w 20 12) (field w 15 5) funct3 (field w 7 5) opcode = w := by
  subst h3 hop
  refine BitVec.eq_of_getLsbD_eq fun i hi => ?_
  simp only [iType, BitVec.getLsbD_append, BitVec.getLsbD_extractLsb']
  grind

/-- The immediate format with a code in the upper bits of the immediate. -/
theorem iType_split {n m : Nat} {code : BitVec n} (hn : n + m = 12)
    (hcode : field w (20 + m) n = code) (h3 : field w 12 3 = funct3)
    (hop : field w 0 7 = opcode) :
    iType ((code ++ field w 20 m).cast hn) (field w 15 5) funct3 (field w 7 5) opcode = w := by
  have himm : (code ++ field w 20 m).cast hn = field w 20 12 := by
    subst hcode
    refine BitVec.eq_of_getLsbD_eq fun i hi => ?_
    simp only [BitVec.getLsbD_cast, BitVec.getLsbD_append, BitVec.getLsbD_extractLsb']
    grind
  rw [himm]
  exact iType_fields h3 hop

theorem uType_fields (hop : field w 0 7 = opcode) :
    uType (field w 12 20) (field w 7 5) opcode = w := by
  subst hop
  refine BitVec.eq_of_getLsbD_eq fun i hi => ?_
  simp only [uType, BitVec.getLsbD_append, BitVec.getLsbD_extractLsb']
  grind

theorem sType_fields (h3 : field w 12 3 = funct3) (hop : field w 0 7 = opcode) :
    sType (field w 25 7 ++ field w 7 5) (field w 20 5) (field w 15 5) funct3 opcode = w := by
  subst h3 hop
  refine BitVec.eq_of_getLsbD_eq fun i hi => ?_
  simp only [sType, rType, BitVec.getLsbD_append, BitVec.getLsbD_extractLsb']
  grind

theorem bType_fields (h3 : field w 12 3 = funct3) (hop : field w 0 7 = opcode) :
    bType (field w 31 1 ++ field w 7 1 ++ field w 25 6 ++ field w 8 4) (field w 20 5)
      (field w 15 5) funct3 opcode = w := by
  subst h3 hop
  refine BitVec.eq_of_getLsbD_eq fun i hi => ?_
  simp only [bType, rType, BitVec.getLsbD_append, BitVec.getLsbD_extractLsb']
  grind

theorem jType_fields (hop : field w 0 7 = opcode) :
    jType (field w 31 1 ++ field w 12 8 ++ field w 20 1 ++ field w 21 10) (field w 7 5) opcode =
      w := by
  subst hop
  refine BitVec.eq_of_getLsbD_eq fun i hi => ?_
  simp only [jType, uType, BitVec.getLsbD_append, BitVec.getLsbD_extractLsb']
  grind

end Fields

namespace BaseInst

variable {w : BitVec 32} {i : BaseInst}

/-- A word that is decoded is the one of its instruction. -/
theorem encode_of_decode (h : decode w = some i) : i.encode = w := by
  unfold decode at h
  dsimp only at h
  split at h
  case h_12 => cases h
  all_goals
    rename_i hop
  · cases h
    exact uType_fields hop
  · cases h
    exact uType_fields hop
  · split at h
    · rename_i op hcode
      cases h
      exact iType_fields (code_ofCode hcode).symm hop
    · obtain ⟨op, hcode, rfl⟩ := Option.map_eq_some_iff.mp h
      unfold ShiftOp.ofFields at hcode
      have hcode := code_ofCode hcode
      obtain ⟨h6, h3⟩ := Prod.mk.inj hcode
      exact iType_split (m := 6) rfl h6.symm h3.symm hop
  · split at h
    · rename_i hf3
      cases h
      exact iType_fields hf3 hop
    · obtain ⟨op, hcode, rfl⟩ := Option.map_eq_some_iff.mp h
      unfold ShiftOp.ofWordFields at hcode
      have hcode := code_ofCode hcode
      obtain ⟨h7, h3⟩ := Prod.mk.inj hcode
      exact iType_split (m := 5) rfl h7.symm h3.symm hop
  · obtain ⟨op, hcode, rfl⟩ := Option.map_eq_some_iff.mp h
    unfold AluOp.ofFields at hcode
    have hcode := code_ofCode hcode
    obtain ⟨h7, h3⟩ := Prod.mk.inj hcode
    exact rType_fields h7.symm h3.symm hop
  · obtain ⟨op, hcode, rfl⟩ := Option.map_eq_some_iff.mp h
    unfold WordOp.ofFields at hcode
    have hcode := code_ofCode hcode
    obtain ⟨h7, h3⟩ := Prod.mk.inj hcode
    exact rType_fields h7.symm h3.symm hop
  · obtain ⟨op, hcode, rfl⟩ := Option.map_eq_some_iff.mp h
    exact iType_fields (code_ofCode hcode).symm hop
  · obtain ⟨width, hcode, rfl⟩ := Option.map_eq_some_iff.mp h
    exact sType_fields (code_ofCode hcode).symm hop
  · cases h
    exact jType_fields hop
  · split at h
    · rename_i hf3
      cases h
      exact iType_fields hf3 hop
    · cases h
  · obtain ⟨op, hcode, rfl⟩ := Option.map_eq_some_iff.mp h
    exact bType_fields (code_ofCode hcode).symm hop

end BaseInst

/-! ### The instruction of an encoding -/

section Immediates

variable (imm : BitVec 12) (imm20 : BitVec 20) (rs2 rs1 rd : Reg) (funct3 : BitVec 3)
  (opcode : BitVec 7)

theorem fields_rType (funct7 : BitVec 7) :
    field (rType funct7 rs2 rs1 funct3 rd opcode) 0 7 = opcode ∧
      field (rType funct7 rs2 rs1 funct3 rd opcode) 12 3 = funct3 ∧
      field (rType funct7 rs2 rs1 funct3 rd opcode) 15 5 = rs1 ∧
      field (rType funct7 rs2 rs1 funct3 rd opcode) 20 5 = rs2 := by
  simp (disch := decide) only [rType, Nat.reduceSub, field_low, field_high, field_all, and_self]

theorem imm_sType : field (sType imm rs2 rs1 funct3 opcode) 25 7 ++
    field (sType imm rs2 rs1 funct3 opcode) 7 5 = imm := by
  refine BitVec.eq_of_getLsbD_eq fun i hi => ?_
  simp only [sType, rType, BitVec.getLsbD_append, BitVec.getLsbD_extractLsb']
  grind

theorem imm_bType : field (bType imm rs2 rs1 funct3 opcode) 31 1 ++
    field (bType imm rs2 rs1 funct3 opcode) 7 1 ++ field (bType imm rs2 rs1 funct3 opcode) 25 6 ++
    field (bType imm rs2 rs1 funct3 opcode) 8 4 = imm := by
  refine BitVec.eq_of_getLsbD_eq fun i hi => ?_
  simp only [bType, rType, BitVec.getLsbD_append, BitVec.getLsbD_extractLsb']
  grind

theorem imm_jType : field (jType imm20 rd opcode) 31 1 ++ field (jType imm20 rd opcode) 12 8 ++
    field (jType imm20 rd opcode) 20 1 ++ field (jType imm20 rd opcode) 21 10 = imm20 := by
  refine BitVec.eq_of_getLsbD_eq fun i hi => ?_
  simp only [jType, uType, BitVec.getLsbD_append, BitVec.getLsbD_extractLsb']
  grind

end Immediates

section Codes

theorem ImmOp.ofField_funct3 (op : ImmOp) : ImmOp.ofField op.toAlu.funct3 = some op := by
  cases op <;> rfl

theorem ImmOp.ofField_shift (op : ShiftOp) : ImmOp.ofField op.toAlu.funct3 = none := by
  cases op <;> rfl

theorem ShiftOp.funct3_ne (op : ShiftOp) : op.toAlu.funct3 ≠ 0 := by
  cases op <;> decide

theorem ShiftOp.ofFields_code (op : ShiftOp) :
    ShiftOp.ofFields (op.toAlu.funct7.extractLsb' 1 6, op.toAlu.funct3) = some op := by
  cases op <;> rfl

theorem ShiftOp.ofWordFields_code (op : ShiftOp) :
    ShiftOp.ofWordFields (op.toAlu.funct7, op.toAlu.funct3) = some op := by
  cases op <;> rfl

theorem AluOp.ofFields_code (op : AluOp) : AluOp.ofFields (op.funct7, op.funct3) = some op := by
  cases op <;> rfl

theorem WordOp.ofFields_code (op : WordOp) :
    WordOp.ofFields (op.toAlu.funct7, op.toAlu.funct3) = some op := by
  cases op <;> rfl

theorem LoadOp.ofField_funct3 (op : LoadOp) : LoadOp.ofField op.funct3 = some op := by
  cases op <;> rfl

theorem Width.ofField_funct3 (width : Width) : Width.ofField width.funct3 = some width := by
  cases width <;> rfl

theorem BranchOp.ofField_funct3 (op : BranchOp) : BranchOp.ofField op.funct3 = some op := by
  cases op <;> rfl

end Codes

namespace BaseInst

theorem decode_comp (i : Comp) : decode i.encode = some (.comp i) := by
  cases i with
  | lui rd imm | auipc rd imm =>
    simp (disch := decide) only [decode, Comp.encode, uType, Nat.reduceSub, field_low, field_high,
      field_all]
    rfl
  | opImm op rd rs1 imm =>
    simp (disch := decide) only [decode, Comp.encode, iType, Nat.reduceSub, field_low, field_high,
      field_all,
      ImmOp.ofField_funct3]
    rfl
  | shiftImm op rd rs1 shamt =>
    simp (disch := decide) only [decode, Comp.encode, iType, Nat.reduceSub, field_low, field_high,
      field_all,
      ImmOp.ofField_shift, ShiftOp.ofFields_code]
    rfl
  | addiw rd rs1 imm =>
    simp (disch := decide) only [decode, Comp.encode, iType, Nat.reduceSub, field_low, field_high,
      field_all]
    rfl
  | shiftImmW op rd rs1 shamt =>
    simp (disch := decide) only [decode, Comp.encode, iType, Nat.reduceSub, field_low, field_high,
      field_all,
      op.funct3_ne, if_false, ShiftOp.ofWordFields_code]
    rfl
  | reg op rd rs1 rs2 =>
    simp (disch := decide) only [decode, Comp.encode, rType, Nat.reduceSub, field_low, field_high,
      field_all,
      AluOp.ofFields_code]
    rfl
  | regW op rd rs1 rs2 =>
    simp (disch := decide) only [decode, Comp.encode, rType, Nat.reduceSub, field_low, field_high,
      field_all,
      WordOp.ofFields_code]
    rfl

theorem decode_encode (i : BaseInst) : decode i.encode = some i := by
  cases i with
  | comp i => exact decode_comp i
  | mem i =>
    cases i with
    | load op rd rs1 imm =>
      simp (disch := decide) only [decode, encode, MemInst.encode, iType, Nat.reduceSub, field_low,
        field_high, field_all, LoadOp.ofField_funct3]
      rfl
    | store width rs1 rs2 imm =>
      have himm : _ = imm := imm_sType imm rs2 rs1 width.funct3 0b0100011
      simp (disch := decide) only [sType, rType, Nat.reduceSub, field_low, field_high,
        field_all] at himm
      simp (disch := decide) only [decode, encode, MemInst.encode, sType, rType, Nat.reduceSub,
        field_low, field_high, field_all, Width.ofField_funct3, himm]
      rfl
  | jal rd imm =>
    have himm : _ = imm := imm_jType imm rd 0b1101111
    have hop : field (jType imm rd 0b1101111) 0 7 = 0b1101111 := by
      simp (disch := decide) only [jType, uType, field_low, field_all]
    have hrd : field (jType imm rd 0b1101111) 7 5 = rd := by
      simp (disch := decide) only [jType, uType, Nat.reduceSub, field_low, field_high, field_all]
    unfold decode encode
    dsimp only
    rw [hop, hrd, himm]
    rfl
  | jalr rd rs1 imm =>
    simp (disch := decide) only [decode, encode, iType, Nat.reduceSub, field_low, field_high,
      field_all]
    rfl
  | branch op rs1 rs2 imm =>
    have himm : _ = imm := imm_bType imm rs2 rs1 op.funct3 0b1100011
    obtain ⟨hop, h3, hrs1, hrs2⟩ := fields_rType rs2 rs1
      (imm.extractLsb' 0 4 ++ imm.extractLsb' 10 1) op.funct3 0b1100011
      (imm.extractLsb' 11 1 ++ imm.extractLsb' 4 6)
    change field (bType imm rs2 rs1 op.funct3 0b1100011) 0 7 = _ at hop
    change field (bType imm rs2 rs1 op.funct3 0b1100011) 12 3 = _ at h3
    change field (bType imm rs2 rs1 op.funct3 0b1100011) 15 5 = _ at hrs1
    change field (bType imm rs2 rs1 op.funct3 0b1100011) 20 5 = _ at hrs2
    unfold decode encode
    dsimp only
    rw [hop, h3, hrs1, hrs2, himm, BranchOp.ofField_funct3]
    rfl

/-- Decoding is the inverse of encoding. -/
theorem decode_eq_some_iff {w : BitVec 32} {i : BaseInst} : decode w = some i ↔ i.encode = w := by
  constructor
  · exact encode_of_decode
  · rintro rfl
    exact decode_encode i

end BaseInst

/-! ## Runs of a partial step -/

section Steps

variable {σ : Type} {f : σ → Option σ} {a b c : σ} {n k : Nat}

/-- The state behind `n` steps, if there are as many. -/
def steps (f : σ → Option σ) : Nat → σ → Option σ
  | 0, a => some a
  | n + 1, a => (steps f n a).bind f

/-- What a step keeps a run keeps. -/
theorem steps_invariant {p : σ → Prop} (hstep : ∀ a b, f a = some b → p a → p b)
    (h : steps f n a = some b) (ha : p a) : p b := by
  induction n generalizing b with
  | zero =>
    cases h
    exact ha
  | succ n ih =>
    obtain ⟨c, hc, hb⟩ := Option.bind_eq_some_iff.mp h
    exact hstep c b hb (ih hc)

/-- A run that is long enough has a state at each of its steps. -/
theorem steps_prefix (h : steps f n a = some b) (hk : k ≤ n) : ∃ c, steps f k a = some c := by
  induction n generalizing b with
  | zero =>
    obtain rfl := Nat.le_zero.mp hk
    exact ⟨a, rfl⟩
  | succ n ih =>
    obtain ⟨c, hc, -⟩ := Option.bind_eq_some_iff.mp h
    rcases Nat.lt_or_eq_of_le hk with hlt | rfl
    · exact ih hc (Nat.le_of_lt_succ hlt)
    · exact ⟨b, h⟩

/-- From all of them but the last it has another step. -/
theorem steps_next (h : steps f n a = some b) (hk : k < n) (hc : steps f k a = some c) :
    ∃ d, f c = some d ∧ steps f (k + 1) a = some d := by
  obtain ⟨d, hd⟩ := steps_prefix h hk
  rw [steps, hc] at hd
  refine ⟨d, hd, ?_⟩
  rw [steps, hc]
  exact hd

end Steps

/-! ## The machine -/

/-- Four bytes are the two of the upper half and the two of the lower. -/
theorem word_halves (m : Memory 64) (a : BitVec 64) :
    word m a 4 = (word m (a + 2) 2 ++ word m a 2 : BitVec 32) := by
  have h2 : a + 1 + 1 = a + 2 := BitVec.add_assoc a 1 1
  simp only [word, h2]
  refine BitVec.eq_of_getLsbD_eq fun i hi => ?_
  simp only [BitVec.getLsbD_append, BitVec.getLsbD_zero]
  grind

/-- The instruction of a word and its length, four bytes or two by the lowest bits. -/
def decode (w : BitVec 32) : Option (BitVec 64 × Inst) :=
  if field w 0 2 = 0b11 then (BaseInst.decode w).map fun i => (4, i.toInst)
  else (Compressed.expand (w.setWidth 16)).map fun i => (2, i)

/-- The address of a load or a store. -/
def Effect.addr : Effect → Option (BitVec 64)
  | .load _ addr _ _ | .store addr _ _ => some addr
  | _ => none

structure Hart where
  x : Reg → BitVec 64
  pc : BitVec 64
  mem : Memory 64

/-- Registers with a new value in one; `x0` has none. -/
def setReg (x : Reg → BitVec 64) (rd : Reg) (value : BitVec 64) : Reg → BitVec 64 := fun r =>
  if r = rd ∧ r ≠ 0 then value else x r

@[simp] theorem setReg_zero (x : Reg → BitVec 64) (value : BitVec 64) : setReg x 0 value = x := by
  funext r
  unfold setReg
  rw [if_neg fun h => h.2 h.1]

theorem setReg_x0 (x : Reg → BitVec 64) (rd : Reg) (value : BitVec 64) :
    setReg x rd value 0 = x 0 := by
  unfold setReg
  rw [if_neg fun h => h.2 rfl]

/-- Where a program may load and store some bytes, and fetch a word. -/
structure AddressSpace where
  loads : BitVec 64 → Nat → Bool
  stores : BitVec 64 → Nat → Bool
  fetches : BitVec 64 → Bool

/-- The addresses of main memory, without the last one. -/
structure MainMemory where
  first : BitVec 64
  last : BitVec 64

/-- It has the `n` bytes from `a` on. -/
def MainMemory.Has (r : MainMemory) (a : BitVec 64) (n : Nat) : Prop :=
  r.first.toNat ≤ a.toNat ∧ a.toNat + n ≤ r.last.toNat

instance (r : MainMemory) (a : BitVec 64) (n : Nat) : Decidable (r.Has a n) :=
  inferInstanceAs (Decidable (_ ∧ _))

/-- The address space of a program that has main memory to itself. -/
def MainMemory.space (r : MainMemory) : AddressSpace where
  loads a n := r.Has a n
  stores a n := r.Has a n
  fetches a := r.Has a 4

namespace Hart

variable (space : AddressSpace)

/-- The effect of an instruction of `len` bytes. -/
def perform (len : BitVec 64) (h : Hart) : Effect → Option Hart
  | .write rd value => some { h with x := setReg h.x rd value, pc := h.pc + len }
  | .jump rd link target => some { h with x := setReg h.x rd link, pc := target }
  | .load rd addr width unsigned =>
    if space.loads addr width.bytes ∧ addr.toNat % width.bytes = 0 then
      some { h with
        x := setReg h.x rd (extend unsigned (word h.mem addr width.bytes))
        pc := h.pc + len }
    else none
  | .store addr width data =>
    if space.stores addr width.bytes ∧ addr.toNat % width.bytes = 0 then
      some { h with
        mem := Write.apply ⟨addr, width.bytes, data.setWidth (8 * width.bytes)⟩ h.mem
        pc := h.pc + len }
    else none
  | .breakpoint => none

/-- The instruction at the PC and its length. -/
def fetch (h : Hart) : Option (BitVec 64 × Inst) :=
  if h.pc % 2 = 0 ∧ space.fetches h.pc then decode (word h.mem h.pc 4) else none

def step (h : Hart) : Option Hart :=
  (h.fetch space).bind fun i => h.perform space i.1 (i.2.effect i.1 h.x h.pc)

/-- The hart after `n` steps. -/
def run (n : Nat) (h : Hart) : Option Hart := steps (step space) n h

variable {space} {h h' : Hart}

theorem perform_load {len addr : BitVec 64} {rd : Reg} {width : Width} {unsigned : Bool}
    (hp : h.perform space len (.load rd addr width unsigned) = some h') :
    (space.loads addr width.bytes = true ∧ addr.toNat % width.bytes = 0) ∧
      h' = { h with
        x := setReg h.x rd (extend unsigned (word h.mem addr width.bytes))
        pc := h.pc + len } := by
  obtain ⟨hacc, heq⟩ := Option.ite_none_right_eq_some.mp hp
  exact ⟨hacc, (Option.some.inj heq).symm⟩

theorem perform_store {len addr data : BitVec 64} {width : Width}
    (hp : h.perform space len (.store addr width data) = some h') :
    (space.stores addr width.bytes = true ∧ addr.toNat % width.bytes = 0) ∧
      h' = { h with
        mem := Write.apply ⟨addr, width.bytes, data.setWidth (8 * width.bytes)⟩ h.mem
        pc := h.pc + len } := by
  obtain ⟨hacc, heq⟩ := Option.ite_none_right_eq_some.mp hp
  exact ⟨hacc, (Option.some.inj heq).symm⟩

/-- No effect gives `x0` another value. -/
theorem perform_zero {len : BitVec 64} {e : Effect} (hp : h.perform space len e = some h')
    (h0 : h.x 0 = 0) : h'.x 0 = 0 := by
  cases e with
  | write rd value =>
    cases hp
    exact (setReg_x0 ..).trans h0
  | jump rd link target =>
    cases hp
    exact (setReg_x0 ..).trans h0
  | load rd addr width unsigned =>
    obtain ⟨-, rfl⟩ := perform_load hp
    exact (setReg_x0 ..).trans h0
  | store addr width data =>
    obtain ⟨-, rfl⟩ := perform_store hp
    exact h0
  | breakpoint => cases hp

theorem step_some (hs : h.step space = some h') : ∃ len i, h.fetch space = some (len, i) ∧
    h.perform space len (i.effect len h.x h.pc) = some h' := by
  obtain ⟨⟨len, i⟩, hf, hp⟩ := Option.bind_eq_some_iff.mp hs
  exact ⟨len, i, hf, hp⟩

theorem step_zero (hs : h.step space = some h') (h0 : h.x 0 = 0) : h'.x 0 = 0 := by
  obtain ⟨len, i, -, hp⟩ := step_some hs
  exact perform_zero hp h0

theorem run_zero {n : Nat} (hr : run space n h = some h') (h0 : h.x 0 = 0) : h'.x 0 = 0 :=
  steps_invariant (p := fun h : Hart => h.x 0 = 0) (fun _ _ hs => step_zero hs) hr h0

end Hart

end NextEmu.Lib.RiscV
