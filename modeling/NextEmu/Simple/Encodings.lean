import NextEmu.Lib.RiscVEncoding
import NextEmu.Simple.IntegerConformance

/-!
# Which words are instructions

For each major opcode, the values of the other fields with which a word is the encoding
of an instruction. They are stated with the decoders of the core where the core decides
alike, which is nearly everywhere.
-/

namespace NextEmu.Simple.Encodings

open NextEmu.Lib.BitField NextEmu.Lib.RiscV
open IntegerConformance

/-! ## The opcode -/

def majorOf : Inst32 → OpCode
  | .comp i => IntegerConformance.majorOf i
  | .mem (.load ..) => .load
  | .mem (.store ..) => .store
  | .jalr .. => .jalr
  | .branch .. => .branch
  | .atomic _ => .amo
  | .system _ => .system

/-- The word of an opcode. -/
def bitsOf : OpCode → BitVec 7
  | .lui => 0b0110111
  | .auipc => 0b0010111
  | .jal => 0b1101111
  | .jalr => 0b1100111
  | .branch => 0b1100011
  | .load => 0b0000011
  | .store => 0b0100011
  | .opImm => 0b0010011
  | .opImm32 => 0b0011011
  | .op => 0b0110011
  | .op32 => 0b0111011
  | .fence => 0b0001111
  | .system => 0b1110011
  | .amo => 0b0101111

theorem ofBits_eq {b : BitVec 7} {k : OpCode} (h : OpCode.ofBits b = some k) : b = bitsOf k := by
  unfold OpCode.ofBits at h
  split at h
  all_goals first | cases h; rfl | cases h

section Fields

variable (imm : BitVec 12) (rs2 rs1 rd : BitVec 5) (funct3 : BitVec 3) (opcode : BitVec 7)

theorem opcode_iType : RVInst.opcode (iType imm rs1 funct3 rd opcode) = opcode := by
  rw [iType_eq, opcode_rType]

theorem rd_iType : RVInst.rd (iType imm rs1 funct3 rd opcode) = rd := by
  rw [iType_eq, rd_rType]

theorem funct3_iType : RVInst.funct3 (iType imm rs1 funct3 rd opcode) = funct3 := by
  rw [iType_eq, funct3_rType]

theorem rs1_iType : RVInst.rs1 (iType imm rs1 funct3 rd opcode) = rs1 := by
  rw [iType_eq, rs1_rType]

theorem imm_iType : field (iType imm rs1 funct3 rd opcode) 20 12 = imm := by
  unfold iType
  rw [field_high _ _ (by decide), field_high _ _ (by decide), field_high _ _ (by decide),
    field_high _ _ (by decide), field_all]

theorem opcode_encode (i : Inst32) : RVInst.opcode i.encode = bitsOf (majorOf i) := by
  cases i with
  | comp i => exact ofBits_eq (IntegerConformance.opcode_encode i).1
  | mem i =>
    cases i with
    | load op rd rs1 imm => exact opcode_iType ..
    | store width rs1 rs2 imm => exact opcode_rType ..
  | jalr rd rs1 imm => exact opcode_iType ..
  | branch op rs1 rs2 imm => exact opcode_rType ..
  | atomic i => cases i <;> exact opcode_rType ..
  | system i =>
    cases i with
    | sfenceVma rs1 rs2 => exact opcode_rType ..
    | _ => exact opcode_iType ..

end Fields

section Words

variable {w : BitVec 32} {k : OpCode}

theorem bitsOf_inj {k k' : OpCode} (h : bitsOf k = bitsOf k') : k = k' := by
  revert h
  cases k <;> cases k' <;> decide

/-- An instruction with this word has its opcode. -/
theorem major_of_encode (h : OpCode.ofBits (RVInst.opcode w) = some k) {i : Inst32}
    (hi : i.encode = w) : majorOf i = k := by
  have hop := ofBits_eq h
  rw [← hi, opcode_encode] at hop
  exact bitsOf_inj hop

/-- A word in the immediate format. -/
theorem eq_iType (h : OpCode.ofBits (RVInst.opcode w) = some k) :
    w = iType (field w 20 12) (RVInst.rs1 w) (RVInst.funct3 w) (RVInst.rd w) (bitsOf k) := by
  rw [← ofBits_eq h]
  refine BitVec.eq_of_getLsbD_eq fun i hi => ?_
  simp only [iType, RVInst.opcode, RVInst.rd, RVInst.funct3, RVInst.rs1, BitVec.getLsbD_append,
    BitVec.getLsbD_extractLsb']
  grind

/-- One in the register format. -/
theorem eq_rType (h : OpCode.ofBits (RVInst.opcode w) = some k) :
    w = rType (RVInst.funct7 w) (RVInst.rs2 w) (RVInst.rs1 w) (RVInst.funct3 w) (RVInst.rd w)
      (bitsOf k) := by
  rw [← ofBits_eq h]
  exact RVInst.eq_fields w

/-- The immediate format is the register format with a longer field. -/
theorem imm_eq (w : BitVec 32) : field w 20 12 = RVInst.funct7 w ++ RVInst.rs2 w := by
  refine BitVec.eq_of_getLsbD_eq fun i hi => ?_
  simp only [RVInst.funct7, RVInst.rs2, BitVec.getLsbD_append, BitVec.getLsbD_extractLsb']
  grind

theorem funct7_eq (w : BitVec 32) : RVInst.funct7 w = field (field w 20 12) 5 7 := by
  refine BitVec.eq_of_getLsbD_eq fun i hi => ?_
  simp only [RVInst.funct7, BitVec.getLsbD_extractLsb']
  grind

end Words

/-! ## The system instructions -/

def csrOpOf (funct3 : BitVec 3) : Option CsrOp :=
  match funct3 with
  | 0b001 => some .rw
  | 0b010 => some .rs
  | 0b011 => some .rc
  | 0b101 => some .rwi
  | 0b110 => some .rsi
  | 0b111 => some .rci
  | _ => none

/-- The instruction of a word of the major opcode SYSTEM. -/
def systemOf (w : BitVec 32) : Option SystemInst :=
  if RVInst.funct3 w = 0 then
    if RVInst.funct7 w = 0b0001001 then
      if RVInst.rd w = 0 then some (.sfenceVma (RVInst.rs1 w) (RVInst.rs2 w)) else none
    else if RVInst.rs1 w = 0 ∧ RVInst.rd w = 0 then
      match field w 20 12 with
      | 0x000 => some .ecall
      | 0x001 => some .ebreak
      | 0x102 => some .sret
      | 0x105 => some .wfi
      | 0x302 => some .mret
      | _ => none
    else none
  else (csrOpOf (RVInst.funct3 w)).map fun op =>
    .csr op (RVInst.rd w) (RVInst.rs1 w) (field w 20 12)

section System

variable {w : BitVec 32} {op : CsrOp} {i : SystemInst}

theorem csrOpOf_funct3 (op : CsrOp) : csrOpOf op.funct3 = some op := by cases op <;> rfl

theorem funct3_csrOpOf {f : BitVec 3} (h : csrOpOf f = some op) : op.funct3 = f := by
  unfold csrOpOf at h
  split at h
  all_goals first | cases h; rfl | cases h

theorem systemOf_encode (i : SystemInst) : systemOf i.encode = some i := by
  have hpriv : ∀ imm : BitVec 12, field imm 5 7 ≠ 0b0001001 →
      systemOf (iType imm 0 0 0 0b1110011) =
        match imm with
        | 0x000 => some .ecall
        | 0x001 => some .ebreak
        | 0x102 => some .sret
        | 0x105 => some .wfi
        | 0x302 => some .mret
        | _ => none := by
    intro imm himm
    unfold systemOf
    rw [funct3_iType, funct7_eq, imm_iType, rs1_iType, rd_iType, if_pos rfl, if_neg himm,
      if_pos ⟨rfl, rfl⟩]
  cases i with
  | csr op rd operand number =>
    have hne : op.funct3 ≠ 0 := by cases op <;> decide
    unfold systemOf SystemInst.encode
    rw [funct3_iType, if_neg hne, csrOpOf_funct3, rd_iType, rs1_iType, imm_iType]
    rfl
  | sfenceVma rs1 rs2 =>
    unfold systemOf SystemInst.encode
    rw [funct3_rType, if_pos rfl, funct7_rType, if_pos rfl, rd_rType, if_pos rfl, rs1_rType,
      rs2_rType]
  | ecall => exact hpriv 0x000 (by decide)
  | ebreak => exact hpriv 0x001 (by decide)
  | sret => exact hpriv 0x102 (by decide)
  | wfi => exact hpriv 0x105 (by decide)
  | mret => exact hpriv 0x302 (by decide)

theorem encode_systemOf (h : OpCode.ofBits (RVInst.opcode w) = some .system)
    (hs : systemOf w = some i) : i.encode = w := by
  have hi := eq_iType h
  unfold systemOf at hs
  split at hs
  · rename_i hf3
    split at hs
    · rename_i hf7
      split at hs
      · rename_i hrd
        cases hs
        have hr := eq_rType h
        rw [hf7, hf3, hrd] at hr
        exact hr.symm
      · cases hs
    · split at hs
      · rename_i hregs
        rw [hregs.1, hregs.2, hf3] at hi
        split at hs
        all_goals
          first
          | cases hs
            rename_i himm
            rw [himm] at hi
            exact hi.symm
          | cases hs
      · cases hs
  · obtain ⟨op, hop, rfl⟩ := Option.map_eq_some_iff.mp hs
    rw [← funct3_csrOpOf hop] at hi
    exact hi.symm

/-- A word has one system instruction at most. -/
theorem system_encode_inj {i j : SystemInst} (h : i.encode = j.encode) : i = j := by
  have hs := systemOf_encode i
  rw [h, systemOf_encode j] at hs
  exact (Option.some.inj hs).symm

end System

/-! ## The other instructions -/

/-- What makes a word of a major opcode the encoding of an instruction. -/
def Fits (w : BitVec 32) : OpCode → Prop
  | .lui | .auipc => True
  | .jal | .fence => False
  | .jalr => RVInst.funct3 w = 0b000
  | .branch => RVInst.funct3 w ≠ 0b010 ∧ RVInst.funct3 w ≠ 0b011
  | .load => RVInst.funct3 w ≠ 0b111
  | .store => RVInst.funct3 w < 0b100
  -- the decoder takes a negative number for a small amount of a left shift
  | .opImm => decodeOpImm w ≠ none ∧
      ¬ (RVInst.funct3 w = 0b001 ∧ (field w 20 12).msb = true)
  | .opImm32 => decodeOpImm32 w ≠ none
  | .op => decodeOp w ≠ none
  | .op32 => decodeOp32 w ≠ none
  | .amo => (RVInst.funct3 w = 0b010 ∨ RVInst.funct3 w = 0b011) ∧
      ∃ op, AMOFunct.ofBits ((RVInst.funct7 w >>> 2).setWidth 5) = some op ∧
        (op = .lr → RVInst.rs2 w = 0)
  | .system => systemOf w ≠ none

section Fits

theorem fits_comp (i : Comp) : Fits i.encode (IntegerConformance.majorOf i) := by
  cases i with
  | lui rd imm => trivial
  | auipc rd imm => trivial
  | opImm op rd rs1 imm =>
    refine ⟨?_, fun h => ?_⟩
    · rw [Comp.encode, decodeOpImm_imm]
      exact Option.some_ne_none _
    · rw [Comp.encode, funct3_iType] at h
      have hne : op.toAlu.funct3 ≠ 0b001 := by cases op <;> decide
      exact hne h.1
  | shiftImm op rd rs1 shamt =>
    refine ⟨?_, fun h => ?_⟩
    · rw [Comp.encode, decodeOpImm_shift]
      exact Option.some_ne_none _
    · rw [Comp.encode, imm_iType] at h
      have hmsb : ∀ shamt : BitVec 6, (op.toAlu.funct7.extractLsb' 1 6 ++ shamt).msb = false := by
        cases op <;> decide
      rw [hmsb shamt] at h
      exact Bool.false_ne_true h.2
  | addiw rd rs1 imm =>
    show decodeOpImm32 _ ≠ none
    rw [Comp.encode, decodeOpImm32_add]
    exact Option.some_ne_none _
  | shiftImmW op rd rs1 shamt =>
    show decodeOpImm32 _ ≠ none
    rw [Comp.encode, decodeOpImm32_shift]
    exact Option.some_ne_none _
  | reg op rd rs1 rs2 =>
    show decodeOp _ ≠ none
    rw [Comp.encode, decodeOp_encode]
    exact Option.some_ne_none _
  | regW op rd rs1 rs2 =>
    show decodeOp32 _ ≠ none
    rw [Comp.encode, decodeOp32_encode]
    exact Option.some_ne_none _

theorem fits_atomic (i : AtomicInst) : Fits i.encode .amo := by
  have hf3 : ∀ double, AtomicInst.funct3 double = 0b010 ∨ AtomicInst.funct3 double = 0b011 := by
    decide
  have hop : ∀ (f5 : BitVec 5) (order : BitVec 2), ((f5 ++ order) >>> 2).setWidth 5 = f5 := by
    decide
  cases i with
  | lr double order rd rs1 =>
    unfold Fits AtomicInst.encode
    rw [funct3_rType, funct7_rType, rs2_rType, hop]
    exact ⟨hf3 double, .lr, rfl, fun _ => rfl⟩
  | amo op double order rd rs1 rs2 =>
    unfold Fits AtomicInst.encode
    rw [funct3_rType, funct7_rType, rs2_rType, hop]
    refine ⟨hf3 double, ?_⟩
    cases op <;> exact ⟨_, rfl, nofun⟩

theorem fits_encode (i : Inst32) : Fits i.encode (majorOf i) := by
  cases i with
  | comp i => exact fits_comp i
  | mem i =>
    cases i with
    | load op rd rs1 imm =>
      show RVInst.funct3 (iType ..) ≠ 0b111
      rw [funct3_iType]
      cases op <;> decide
    | store width rs1 rs2 imm =>
      show RVInst.funct3 (rType ..) < 0b100
      rw [funct3_rType]
      cases width <;> decide
  | jalr rd rs1 imm => exact funct3_iType ..
  | branch op rs1 rs2 imm =>
    show RVInst.funct3 (rType ..) ≠ 0b010 ∧ RVInst.funct3 (rType ..) ≠ 0b011
    rw [funct3_rType]
    cases op <;> decide
  | atomic i => exact fits_atomic i
  | system i =>
    show systemOf i.encode ≠ none
    rw [systemOf_encode]
    exact Option.some_ne_none i

variable {w : BitVec 32}

/-- The word is that of an instruction. -/
def Encoded (w : BitVec 32) : Prop := ∃ i : Inst32, i.encode = w

theorem encoded_load (h : OpCode.ofBits (RVInst.opcode w) = some .load)
    (hf : RVInst.funct3 w ≠ 0b111) : Encoded w := by
  have hop : ∀ f : BitVec 3, f ≠ 0b111 →
      ∃ op ∈ [LoadOp.lb, .lh, .lw, .ld, .lbu, .lhu, .lwu], op.funct3 = f := by decide
  obtain ⟨op, -, hop⟩ := hop _ hf
  refine ⟨.mem (.load op (RVInst.rd w) (RVInst.rs1 w) (field w 20 12)), ?_⟩
  have hw := eq_iType h
  rw [← hop] at hw
  exact hw.symm

theorem encoded_store (h : OpCode.ofBits (RVInst.opcode w) = some .store)
    (hf : RVInst.funct3 w < 0b100) : Encoded w := by
  have hop : ∀ f : BitVec 3, f < 0b100 →
      ∃ width ∈ [Width.byte, .half, .word, .double], width.funct3 = f := by decide
  obtain ⟨width, -, hop⟩ := hop _ hf
  refine ⟨.mem (.store width (RVInst.rs1 w) (RVInst.rs2 w) (RVInst.funct7 w ++ RVInst.rd w)), ?_⟩
  have hw := eq_rType h
  have hhigh : (RVInst.funct7 w ++ RVInst.rd w).extractLsb' 5 7 = RVInst.funct7 w := by
    exact (field_high _ _ (by decide)).trans (field_all _)
  have hlow : (RVInst.funct7 w ++ RVInst.rd w).extractLsb' 0 5 = RVInst.rd w := by
    exact (field_low _ _ (by decide)).trans (field_all _)
  show rType _ _ _ _ _ _ = w
  rw [hhigh, hlow, hop]
  exact hw.symm

/-- The two immediate fields of a branch hold any offset. -/
theorem bType_fields (rs2 rs1 : BitVec 5) (funct3 : BitVec 3) (opcode funct7 : BitVec 7)
    (rd : BitVec 5) : ∃ imm, bType imm rs2 rs1 funct3 opcode =
      rType funct7 rs2 rs1 funct3 rd opcode := by
  have hhigh : ∀ (f7 : BitVec 7) (rd : BitVec 5),
      (f7.extractLsb' 6 1 ++ rd.extractLsb' 0 1 ++ f7.extractLsb' 0 6 ++
        rd.extractLsb' 1 4).extractLsb' 11 1 ++
      (f7.extractLsb' 6 1 ++ rd.extractLsb' 0 1 ++ f7.extractLsb' 0 6 ++
        rd.extractLsb' 1 4).extractLsb' 4 6 = f7 := by
    intro f7 rd
    refine BitVec.eq_of_getLsbD_eq fun i hi => ?_
    simp only [BitVec.getLsbD_append, BitVec.getLsbD_extractLsb']
    grind
  have hlow : ∀ (f7 : BitVec 7) (rd : BitVec 5),
      (f7.extractLsb' 6 1 ++ rd.extractLsb' 0 1 ++ f7.extractLsb' 0 6 ++
        rd.extractLsb' 1 4).extractLsb' 0 4 ++
      (f7.extractLsb' 6 1 ++ rd.extractLsb' 0 1 ++ f7.extractLsb' 0 6 ++
        rd.extractLsb' 1 4).extractLsb' 10 1 = rd := by
    intro f7 rd
    refine BitVec.eq_of_getLsbD_eq fun i hi => ?_
    simp only [BitVec.getLsbD_append, BitVec.getLsbD_extractLsb']
    grind
  refine ⟨funct7.extractLsb' 6 1 ++ rd.extractLsb' 0 1 ++ funct7.extractLsb' 0 6 ++
    rd.extractLsb' 1 4, ?_⟩
  unfold bType
  rw [hhigh, hlow]

theorem encoded_branch (h : OpCode.ofBits (RVInst.opcode w) = some .branch)
    (hf : RVInst.funct3 w ≠ 0b010 ∧ RVInst.funct3 w ≠ 0b011) : Encoded w := by
  have hop : ∀ f : BitVec 3, f ≠ 0b010 ∧ f ≠ 0b011 →
      ∃ op ∈ [BranchOp.eq, .ne, .lt, .ge, .ltu, .geu], op.funct3 = f := by decide
  obtain ⟨op, -, hop⟩ := hop _ hf
  obtain ⟨imm, himm⟩ := bType_fields (RVInst.rs2 w) (RVInst.rs1 w) (RVInst.funct3 w) 0b1100011
    (RVInst.funct7 w) (RVInst.rd w)
  refine ⟨.branch op (RVInst.rs1 w) (RVInst.rs2 w) imm, ?_⟩
  show bType _ _ _ _ _ = w
  rw [hop, himm]
  exact (eq_rType h).symm

theorem encoded_jalr (h : OpCode.ofBits (RVInst.opcode w) = some .jalr)
    (hf : RVInst.funct3 w = 0b000) : Encoded w := by
  have hw := eq_iType h
  rw [hf] at hw
  exact ⟨.jalr (RVInst.rd w) (RVInst.rs1 w) (field w 20 12), hw.symm⟩

theorem encoded_op (h : OpCode.ofBits (RVInst.opcode w) = some .op) (hd : decodeOp w ≠ none) :
    Encoded w := by
  have hop : ∃ op ∈ [AluOp.add, .sub, .sll, .slt, .sltu, .xor, .srl, .sra, .or, .and, .mul, .mulh,
      .mulhsu, .mulhu, .div, .divu, .rem, .remu],
      op.funct7 = RVInst.funct7 w ∧ op.funct3 = RVInst.funct3 w := by
    unfold decodeOp at hd
    split at hd
    case h_19 => exact absurd rfl hd
    all_goals
      rename_i hf7 hf3
      rw [hf7, hf3]
      decide
  obtain ⟨op, -, hf7, hf3⟩ := hop
  have hw := eq_rType h
  rw [← hf7, ← hf3] at hw
  exact ⟨.comp (.reg op (RVInst.rd w) (RVInst.rs1 w) (RVInst.rs2 w)), hw.symm⟩

theorem encoded_op32 (h : OpCode.ofBits (RVInst.opcode w) = some .op32)
    (hd : decodeOp32 w ≠ none) : Encoded w := by
  have hop : ∃ op ∈ [WordOp.add, .sub, .sll, .srl, .sra, .mul, .div, .divu, .rem, .remu],
      op.toAlu.funct7 = RVInst.funct7 w ∧ op.toAlu.funct3 = RVInst.funct3 w := by
    unfold decodeOp32 at hd
    split at hd
    case h_11 => exact absurd rfl hd
    all_goals
      rename_i hf7 hf3
      rw [hf7, hf3]
      decide
  obtain ⟨op, -, hf7, hf3⟩ := hop
  have hw := eq_rType h
  rw [← hf7, ← hf3] at hw
  exact ⟨.comp (.regW op (RVInst.rd w) (RVInst.rs1 w) (RVInst.rs2 w)), hw.symm⟩

theorem encoded_amo (h : OpCode.ofBits (RVInst.opcode w) = some .amo) (hf : Fits w .amo) :
    Encoded w := by
  obtain ⟨hf3, op, hop, hlr⟩ := hf
  have hdouble : ∀ f : BitVec 3, f = 0b010 ∨ f = 0b011 →
      ∃ double, AtomicInst.funct3 double = f := by decide
  have horder : ∀ f7 : BitVec 7,
      f7 = (f7 >>> 2).setWidth 5 ++ f7.extractLsb' 0 2 := by decide
  obtain ⟨double, hd⟩ := hdouble _ hf3
  have hw := eq_rType h
  rw [horder (RVInst.funct7 w), ← hd] at hw
  by_cases hl : op = .lr
  · have hf5 : (RVInst.funct7 w >>> 2).setWidth 5 = 0b00010#5 := by
      subst hl
      revert hop
      generalize (RVInst.funct7 w >>> 2).setWidth 5 = f5
      revert f5
      decide
    rw [hf5, hlr hl] at hw
    exact ⟨.atomic (.lr double ((RVInst.funct7 w).extractLsb' 0 2) (RVInst.rd w) (RVInst.rs1 w)),
      hw.symm⟩
  · have hf5 : ∀ f5 : BitVec 5, AMOFunct.ofBits f5 ≠ none → AMOFunct.ofBits f5 ≠ some .lr →
        ∃ o ∈ [AtomicOp.sc, .swap, .add, .xor, .and, .or, .min, .max, .minu, .maxu],
          o.funct5 = f5 := by decide
    have hf5' := hf5 ((RVInst.funct7 w >>> 2).setWidth 5)
    rw [hop] at hf5'
    obtain ⟨o, -, ho⟩ := hf5' (Option.some_ne_none op) fun he => hl (Option.some.inj he)
    rw [← ho] at hw
    exact ⟨.atomic (.amo o double ((RVInst.funct7 w).extractLsb' 0 2) (RVInst.rd w) (RVInst.rs1 w)
      (RVInst.rs2 w)), hw.symm⟩

/-! An immediate of a shift is an amount below the bits that tell the shifts apart. -/

/-- A shift amount is tested as a signed number. -/
theorem sle_imm (imm : BitVec 12) :
    BitVec.sle 64 (imm.signExtend 64) = decide (64 ≤ imm.toInt) := by
  have hext : (imm.signExtend 64).toInt = imm.toInt := BitVec.toInt_signExtend_of_le (by decide)
  unfold BitVec.sle
  rw [hext]
  rfl

theorem eq_shamt {imm : BitVec 12} (hpos : imm.msb = false)
    (hlt : BitVec.sle 64 (imm.signExtend 64) = false) : 0#6 ++ imm.extractLsb' 0 6 = imm := by
  rw [sle_imm, BitVec.toInt_eq_toNat_of_msb hpos] at hlt
  have hsmall : imm.toNat < 64 := by
    have h := of_decide_eq_false hlt
    omega
  refine BitVec.eq_of_toNat_eq ?_
  have hzero : (0#6 ++ imm.extractLsb' 0 6).toNat = imm.toNat % 64 :=
    (BitVec.toNat_append 0#6 (imm.extractLsb' 0 6)).trans (by simp)
  omega

/-- The upper half of an immediate. -/
theorem imm_halves (imm : BitVec 12) :
    (field imm 5 7 >>> 1).setWidth 6 ++ imm.extractLsb' 0 6 = imm := by
  refine BitVec.eq_of_getLsbD_eq fun i hi => ?_
  simp only [BitVec.getLsbD_append, BitVec.getLsbD_setWidth, BitVec.getLsbD_ushiftRight,
    BitVec.getLsbD_extractLsb']
  grind

theorem eq_shamtRight {imm : BitVec 12}
    (h : ¬ (field imm 5 7 >>> 1 ≠ 0b000000 ∧ field imm 5 7 >>> 1 ≠ 0b010000)) :
    ∃ op ∈ [ShiftOp.srl, .sra],
      op.toAlu.funct7.extractLsb' 1 6 ++ imm.extractLsb' 0 6 = imm := by
  have himm := imm_halves imm
  by_cases hsrl : field imm 5 7 >>> 1 = 0b000000
  · rw [hsrl] at himm
    exact ⟨.srl, by decide, himm⟩
  · have hsra : field imm 5 7 >>> 1 = 0b010000 := Decidable.of_not_not fun hne => h ⟨hsrl, hne⟩
    rw [hsra] at himm
    exact ⟨.sra, by decide, himm⟩

section OpImm

variable (h : OpCode.ofBits (RVInst.opcode w) = some .opImm)
include h

theorem encoded_imm (op : ImmOp) (hf3 : op.toAlu.funct3 = RVInst.funct3 w) : Encoded w := by
  have hw := eq_iType h
  rw [← hf3] at hw
  exact ⟨.comp (.opImm op (RVInst.rd w) (RVInst.rs1 w) (field w 20 12)), hw.symm⟩

theorem encoded_shift (op : ShiftOp) (hf3 : op.toAlu.funct3 = RVInst.funct3 w) (shamt : BitVec 6)
    (himm : op.toAlu.funct7.extractLsb' 1 6 ++ shamt = field w 20 12) : Encoded w := by
  have hw := eq_iType h
  rw [← hf3, ← himm] at hw
  exact ⟨.comp (.shiftImm op (RVInst.rd w) (RVInst.rs1 w) shamt), hw.symm⟩

theorem encoded_opImm (hf : Fits w .opImm) : Encoded w := by
  obtain ⟨hd, hneg⟩ := hf
  unfold decodeOpImm at hd
  dsimp only at hd
  split at hd
  case h_1 hf3 => exact encoded_imm h .add hf3.symm
  case h_2 hf3 => exact encoded_imm h .slt hf3.symm
  case h_3 hf3 => exact encoded_imm h .sltu hf3.symm
  case h_4 hf3 => exact encoded_imm h .xor hf3.symm
  case h_5 hf3 => exact encoded_imm h .or hf3.symm
  case h_6 hf3 => exact encoded_imm h .and hf3.symm
  case h_7 hf3 =>
    have hpos : (field w 20 12).msb = false := Bool.eq_false_iff.mpr fun hm => hneg ⟨hf3, hm⟩
    split at hd
    · exact absurd rfl hd
    · rename_i hlt
      exact encoded_shift h .sll hf3.symm _ (eq_shamt hpos (Bool.eq_false_iff.mpr hlt))
  case h_8 h0 h2 h3 h4 h6 h7 h1 =>
    have hf3 : RVInst.funct3 w = 0b101 := by
      revert h0 h1 h2 h3 h4 h6 h7
      generalize RVInst.funct3 w = f
      revert f
      decide
    rw [funct7_eq] at hd
    split at hd
    · exact absurd rfl hd
    · rename_i hbits
      obtain ⟨op, hop, himm⟩ := eq_shamtRight hbits
      have hop3 : ∀ op ∈ [ShiftOp.srl, .sra], op.toAlu.funct3 = 0b101 := by decide
      exact encoded_shift h op ((hop3 op hop).trans hf3.symm) _ himm

end OpImm

section OpImm32

variable (h : OpCode.ofBits (RVInst.opcode w) = some .opImm32)
include h

theorem encoded_shiftW (op : ShiftOp) (hf3 : op.toAlu.funct3 = RVInst.funct3 w)
    (hf7 : op.toAlu.funct7 = RVInst.funct7 w) : Encoded w := by
  have hw := eq_iType h
  rw [imm_eq, ← hf3, ← hf7] at hw
  exact ⟨.comp (.shiftImmW op (RVInst.rd w) (RVInst.rs1 w) (RVInst.rs2 w)), hw.symm⟩

theorem encoded_opImm32 (hd : decodeOpImm32 w ≠ none) : Encoded w := by
  unfold decodeOpImm32 at hd
  dsimp only at hd
  split at hd
  case h_1 hf3 =>
    have hw := eq_iType h
    rw [hf3] at hw
    exact ⟨.comp (.addiw (RVInst.rd w) (RVInst.rs1 w) (field w 20 12)), hw.symm⟩
  case h_2 hf3 =>
    split at hd
    · exact absurd rfl hd
    · rename_i hbits
      have hf7 : RVInst.funct7 w = 0b0000000 := Decidable.of_not_not fun hne => hbits (.inr hne)
      exact encoded_shiftW h .sll hf3.symm hf7.symm
  case h_3 hf3 =>
    split at hd
    · exact absurd rfl hd
    · rename_i hbits
      by_cases hf7 : RVInst.funct7 w = 0b0000000
      · exact encoded_shiftW h .srl hf3.symm hf7.symm
      · have hf7 : RVInst.funct7 w = 0b0100000 :=
          Decidable.of_not_not fun hne => hbits ⟨hf7, hne⟩
        exact encoded_shiftW h .sra hf3.symm hf7.symm
  case h_4 => exact absurd rfl hd

end OpImm32

theorem encoded_system (h : OpCode.ofBits (RVInst.opcode w) = some .system)
    (hs : systemOf w ≠ none) : Encoded w := by
  cases hi : systemOf w with
  | none => exact absurd hi hs
  | some i => exact ⟨.system i, encode_systemOf h hi⟩

/-- The words of the instructions of an opcode, but for LUI and AUIPC. -/
theorem encoded_iff {k : OpCode} (h : OpCode.ofBits (RVInst.opcode w) = some k)
    (hlui : k ≠ .lui) (hauipc : k ≠ .auipc) : Encoded w ↔ Fits w k := by
  constructor
  · rintro ⟨i, hi⟩
    have hfits := fits_encode i
    rwa [major_of_encode h hi, hi] at hfits
  · intro hf
    cases k with
    | lui => exact absurd rfl hlui
    | auipc => exact absurd rfl hauipc
    | jal => exact hf.elim
    | fence => exact hf.elim
    | jalr => exact encoded_jalr h hf
    | branch => exact encoded_branch h hf
    | load => exact encoded_load h hf
    | store => exact encoded_store h hf
    | opImm => exact encoded_opImm h hf
    | opImm32 => exact encoded_opImm32 h hf
    | op => exact encoded_op h hf
    | op32 => exact encoded_op32 h hf
    | amo => exact encoded_amo h hf
    | system => exact encoded_system h hf

end Fits

end NextEmu.Simple.Encodings
