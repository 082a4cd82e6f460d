import NextEmu.Lib.RiscV

/-!
# The 32-bit encodings

The words of the instructions of RV64IMA and Zicsr, and of the privileged instructions,
besides the computational ones. An instruction is its operation and the contents of the
fields that the manual leaves to the program; `encode` puts the fixed fields around them.
-/

namespace NextEmu.Lib.RiscV

/-! ## Loads and stores -/

inductive LoadOp
  | lb | lh | lw | ld | lbu | lhu | lwu
  deriving DecidableEq, Repr

def LoadOp.width : LoadOp → Width
  | .lb | .lbu => .byte
  | .lh | .lhu => .half
  | .lw | .lwu => .word
  | .ld => .double

def LoadOp.unsigned : LoadOp → Bool
  | .lbu | .lhu | .lwu => true
  | _ => false

def LoadOp.funct3 : LoadOp → BitVec 3
  | .lb => 0b000
  | .lh => 0b001
  | .lw => 0b010
  | .ld => 0b011
  | .lbu => 0b100
  | .lhu => 0b101
  | .lwu => 0b110

/-- `funct3` of a store. -/
def Width.funct3 : Width → BitVec 3
  | .byte => 0b000
  | .half => 0b001
  | .word => 0b010
  | .double => 0b011

def sType (imm : BitVec 12) (rs2 rs1 : Reg) (funct3 : BitVec 3) (opcode : BitVec 7) : BitVec 32 :=
  rType (imm.extractLsb' 5 7) rs2 rs1 funct3 (imm.extractLsb' 0 5) opcode

inductive MemInst
  | load (op : LoadOp) (rd rs1 : Reg) (imm : BitVec 12)
  | store (width : Width) (rs1 rs2 : Reg) (imm : BitVec 12)
  deriving DecidableEq, Repr

namespace MemInst

def encode : MemInst → BitVec 32
  | load op rd rs1 imm => iType imm rs1 op.funct3 rd 0b0000011
  | store width rs1 rs2 imm => sType imm rs2 rs1 width.funct3 0b0100011

def width : MemInst → Width
  | load op _ _ _ => op.width
  | store width _ _ _ => width

/-- The first address of the access. -/
def addr (x : Reg → BitVec 64) : MemInst → BitVec 64
  | load _ _ rs1 imm | store _ rs1 _ imm => x rs1 + imm.signExtend 64

end MemInst

/-! ## Jumps and branches -/

/-- The offset, in halfwords, is scattered over the two immediate fields. -/
def bType (imm : BitVec 12) (rs2 rs1 : Reg) (funct3 : BitVec 3) (opcode : BitVec 7) : BitVec 32 :=
  rType (imm.extractLsb' 11 1 ++ imm.extractLsb' 4 6) rs2 rs1 funct3
    (imm.extractLsb' 0 4 ++ imm.extractLsb' 10 1) opcode

/-- The offset of a jump, in halfwords too. -/
def jType (imm : BitVec 20) (rd : Reg) (opcode : BitVec 7) : BitVec 32 :=
  uType (imm.extractLsb' 19 1 ++ imm.extractLsb' 0 10 ++ imm.extractLsb' 10 1 ++
    imm.extractLsb' 11 8) rd opcode

def BranchOp.funct3 : BranchOp → BitVec 3
  | .eq => 0b000
  | .ne => 0b001
  | .lt => 0b100
  | .ge => 0b101
  | .ltu => 0b110
  | .geu => 0b111

/-! ## Atomic instructions -/

/-- The operations with two source registers. -/
inductive AtomicOp
  | sc | swap | add | xor | and | or | min | max | minu | maxu
  deriving DecidableEq, Repr

def AtomicOp.funct5 : AtomicOp → BitVec 5
  | .sc => 0b00011
  | .swap => 0b00001
  | .add => 0b00000
  | .xor => 0b00100
  | .and => 0b01100
  | .or => 0b01000
  | .min => 0b10000
  | .max => 0b10100
  | .minu => 0b11000
  | .maxu => 0b11100

/-- What an operation stores, of the word in memory and the source; the comparisons are those of
words of this width. -/
def AtomicOp.value {w : Nat} (op : AtomicOp) (old src : BitVec w) : BitVec w :=
  match op with
  | .sc | .swap => src
  | .add => old + src
  | .xor => old ^^^ src
  | .and => old &&& src
  | .or => old ||| src
  | .min => if src.toInt < old.toInt then src else old
  | .max => if old.toInt < src.toInt then src else old
  | .minu => if src.toNat < old.toNat then src else old
  | .maxu => if old.toNat < src.toNat then src else old

/-- LR, and the others with their source; `order` holds the bits aq and rl. -/
inductive AtomicInst
  | lr (double : Bool) (order : BitVec 2) (rd rs1 : Reg)
  | amo (op : AtomicOp) (double : Bool) (order : BitVec 2) (rd rs1 rs2 : Reg)
  deriving DecidableEq, Repr

namespace AtomicInst

def funct3 (double : Bool) : BitVec 3 := if double then 0b011 else 0b010

def encode : AtomicInst → BitVec 32
  | lr double order rd rs1 => rType (0b00010#5 ++ order) 0 rs1 (funct3 double) rd 0b0101111
  | amo op double order rd rs1 rs2 =>
    rType (op.funct5 ++ order) rs2 rs1 (funct3 double) rd 0b0101111

end AtomicInst

/-! ## System instructions -/

/-- The CSR instructions; an `i` form takes the operand field as a number. -/
inductive CsrOp
  | rw | rs | rc | rwi | rsi | rci
  deriving DecidableEq, Repr

namespace CsrOp

def funct3 : CsrOp → BitVec 3
  | rw => 0b001
  | rs => 0b010
  | rc => 0b011
  | rwi => 0b101
  | rsi => 0b110
  | rci => 0b111

/-- Whether the instruction writes the CSR. -/
def writes (op : CsrOp) (operand : Reg) : Bool :=
  match op with
  | rw | rwi => true
  | rs | rc | rsi | rci => operand != 0

/-- The source value. -/
def source (x : Reg → BitVec 64) (operand : Reg) : CsrOp → BitVec 64
  | rw | rs | rc => x operand
  | rwi | rsi | rci => operand.setWidth 64

/-- What it writes, of the old value and the source. -/
def newValue (old src : BitVec 64) : CsrOp → BitVec 64
  | rw | rwi => src
  | rs | rsi => old ||| src
  | rc | rci => old &&& ~~~ src

end CsrOp

inductive SystemInst
  | csr (op : CsrOp) (rd operand : Reg) (number : BitVec 12)
  | ecall | ebreak | mret | sret | wfi
  | sfenceVma (rs1 rs2 : Reg)
  deriving DecidableEq, Repr

def SystemInst.encode : SystemInst → BitVec 32
  | csr op rd operand number => iType number operand op.funct3 rd 0b1110011
  | ecall => iType 0x000 0 0 0 0b1110011
  | ebreak => iType 0x001 0 0 0 0b1110011
  | sret => iType 0x102 0 0 0 0b1110011
  | wfi => iType 0x105 0 0 0 0b1110011
  | mret => iType 0x302 0 0 0 0b1110011
  | sfenceVma rs1 rs2 => rType 0b0001001 rs2 rs1 0 0 0b1110011

/-! ## All of them -/

/-- The instructions of all major opcodes but those of JAL and FENCE. -/
inductive Inst32
  | comp (i : Comp)
  | mem (i : MemInst)
  | jalr (rd rs1 : Reg) (imm : BitVec 12)
  | branch (op : BranchOp) (rs1 rs2 : Reg) (imm : BitVec 12)
  | atomic (i : AtomicInst)
  | system (i : SystemInst)
  deriving DecidableEq, Repr

def Inst32.encode : Inst32 → BitVec 32
  | comp i => i.encode
  | mem i => i.encode
  | jalr rd rs1 imm => iType imm rs1 0b000 rd 0b1100111
  | branch op rs1 rs2 imm => bType imm rs2 rs1 op.funct3 0b1100011
  | atomic i => i.encode
  | system i => i.encode

end NextEmu.Lib.RiscV
