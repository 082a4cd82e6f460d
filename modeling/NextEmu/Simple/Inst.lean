import NextEmu.Lib.BitField

/-!
# Instruction formats and opcodes

`misc/rv64_inst.h`. A field of the union `RVInst_t` is a run of bits of the word;
a field declared `int` is sign-extended where it is used.
-/

namespace NextEmu.Simple

open NextEmu.Lib.BitField

/-- `binary_concat(value, r, l, shift)`: bits `r` down to `l`, moved to bit `shift`. -/
def binaryConcat (value : BitVec 32) (r l shift : Nat) : BitVec 32 :=
  ((value >>> l) &&& ((1#32 <<< (r - l + 1)) - 1)) <<< shift

/-! The fields of `RVInst_t`. -/

namespace RVInst

def opcode (inst : BitVec 32) : BitVec 7 := field inst 0 7
def rd (inst : BitVec 32) : BitVec 5 := field inst 7 5
def funct3 (inst : BitVec 32) : BitVec 3 := field inst 12 3
def rs1 (inst : BitVec 32) : BitVec 5 := field inst 15 5
def rs2 (inst : BitVec 32) : BitVec 5 := field inst 20 5
def funct7 (inst : BitVec 32) : BitVec 7 := field inst 25 7

/-- `i_type.imm12`, an `int` field. -/
def iImm12 (inst : BitVec 32) : BitVec 64 := (field inst 20 12).signExtend 64

/-- The offset of a store, of the fields `imm_11_5` (an `int`) and `imm_4_0`. -/
def sImm (inst : BitVec 32) : BitVec 64 :=
  ((field inst 25 7).signExtend 32 <<< 5 ||| (field inst 7 5).setWidth 32).signExtend 64

/-- The offset of a branch. -/
def bImm (inst : BitVec 32) : BitVec 64 :=
  ((field inst 31 1).signExtend 32 <<< 12 ||| (field inst 7 1).setWidth 32 <<< 11 |||
    (field inst 25 6).setWidth 32 <<< 5 ||| (field inst 8 4).setWidth 32 <<< 1).signExtend 64

/-- `((int64_t) u_type.imm_31_12) << 12`. -/
def uImm (inst : BitVec 32) : BitVec 64 := (field inst 12 20).signExtend 64 <<< 12

/-- The offset of JAL. -/
def jImm (inst : BitVec 32) : BitVec 64 :=
  ((field inst 31 1).signExtend 32 <<< 20 ||| (field inst 12 8).setWidth 32 <<< 12 |||
    (field inst 20 1).setWidth 32 <<< 11 ||| (field inst 21 10).setWidth 32 <<< 1).signExtend 64

/-- The fields of the register format make up the word. -/
theorem eq_fields (inst : BitVec 32) :
    inst = funct7 inst ++ rs2 inst ++ rs1 inst ++ funct3 inst ++ rd inst ++ opcode inst := by
  refine BitVec.eq_of_getLsbD_eq fun i hi => ?_
  simp only [opcode, rd, funct3, rs1, rs2, funct7, BitVec.getLsbD_append,
    BitVec.getLsbD_extractLsb']
  grind

end RVInst

/-- `RV64I_OpCode_enum`. -/
inductive OpCode
  | lui | auipc | jal | jalr | branch | load | store
  | opImm | opImm32 | op | op32 | fence | system | amo
  deriving DecidableEq, Repr

def OpCode.ofBits (b : BitVec 7) : Option OpCode :=
  match b with
  | 0b0110111 => some .lui
  | 0b0010111 => some .auipc
  | 0b1101111 => some .jal
  | 0b1100111 => some .jalr
  | 0b1100011 => some .branch
  | 0b0000011 => some .load
  | 0b0100011 => some .store
  | 0b0010011 => some .opImm
  | 0b0011011 => some .opImm32
  | 0b0110011 => some .op
  | 0b0111011 => some .op32
  | 0b0001111 => some .fence
  | 0b1110011 => some .system
  | 0b0101111 => some .amo
  | _ => none

/-- `RV64C_OpCode_enum`: `inst[1:0]` and `inst[15:13]`. -/
inductive COpCode
  | addi4spn | lw | ld | sw | sd
  | addi | addiw | li | addi16spLui | alu | j | beqz | bnez
  | slli | lwsp | ldsp | jrMvEbJalrAdd | swsp | sdsp
  deriving DecidableEq, Repr

def COpCode.ofBits (b : BitVec 5) : Option COpCode :=
  match b with
  | 0b00000 => some .addi4spn
  | 0b00010 => some .lw
  | 0b00011 => some .ld
  | 0b00110 => some .sw
  | 0b00111 => some .sd
  | 0b01000 => some .addi
  | 0b01001 => some .addiw
  | 0b01010 => some .li
  | 0b01011 => some .addi16spLui
  | 0b01100 => some .alu
  | 0b01101 => some .j
  | 0b01110 => some .beqz
  | 0b01111 => some .bnez
  | 0b10000 => some .slli
  | 0b10010 => some .lwsp
  | 0b10011 => some .ldsp
  | 0b10100 => some .jrMvEbJalrAdd
  | 0b10110 => some .swsp
  | 0b10111 => some .sdsp
  | _ => none

/-- `AMO_Funct_enum`. -/
inductive AMOFunct
  | lr | sc | swap | add | xor | and | or | min | max | minu | maxu
  deriving DecidableEq, Repr

def AMOFunct.ofBits (b : BitVec 5) : Option AMOFunct :=
  match b with
  | 0b00010 => some .lr
  | 0b00011 => some .sc
  | 0b00001 => some .swap
  | 0b00000 => some .add
  | 0b00100 => some .xor
  | 0b01100 => some .and
  | 0b01000 => some .or
  | 0b10000 => some .min
  | 0b10100 => some .max
  | 0b11000 => some .minu
  | 0b11100 => some .maxu
  | _ => none

/-- `ALU_Op_enum`. -/
inductive ALUOp
  | add | sub | sll | slt | sltu | xor | srl | sra | or | and
  | mul | mulh | mulhu | mulhsu | div | divu | rem | remu
  | nop
  deriving DecidableEq, Repr

end NextEmu.Simple
