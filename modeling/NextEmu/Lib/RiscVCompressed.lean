import NextEmu.Lib.BitField
import NextEmu.Lib.RiscV

/-!
# The compressed instructions of RV64C

The manual's expansion of each 16-bit encoding. An immediate is put together from its
bits, the highest first, with the zeros below it; hints expand like the instructions
whose encodings they are; reserved and floating-point encodings have no expansion.
-/

namespace NextEmu.Lib.RiscV.Compressed

open BitField

/-- A three-bit register field names one of `x8` to `x15`. -/
def creg (r : BitVec 3) : Reg := 0b01#2 ++ r

/-! The immediates, in the order of their bits. -/

def uimmAddi4spn (c : BitVec 16) : BitVec 10 :=
  field c 7 4 ++ field c 11 2 ++ field c 5 1 ++ field c 6 1 ++ 0#2

def uimmW (c : BitVec 16) : BitVec 7 := field c 5 1 ++ field c 10 3 ++ field c 6 1 ++ 0#2

def uimmD (c : BitVec 16) : BitVec 8 := field c 5 2 ++ field c 10 3 ++ 0#3

def imm6 (c : BitVec 16) : BitVec 6 := field c 12 1 ++ field c 2 5

def immAddi16sp (c : BitVec 16) : BitVec 10 :=
  field c 12 1 ++ field c 3 2 ++ field c 5 1 ++ field c 2 1 ++ field c 6 1 ++ 0#4

/-- The offset of a jump, in halfwords. -/
def immJ (c : BitVec 16) : BitVec 11 :=
  field c 12 1 ++ field c 8 1 ++ field c 9 2 ++ field c 6 1 ++ field c 7 1 ++ field c 2 1 ++
    field c 11 1 ++ field c 3 3

/-- The offset of a branch, in halfwords. -/
def immB (c : BitVec 16) : BitVec 8 :=
  field c 12 1 ++ field c 5 2 ++ field c 2 1 ++ field c 10 2 ++ field c 3 2

def uimmLwsp (c : BitVec 16) : BitVec 8 := field c 2 2 ++ field c 12 1 ++ field c 4 3 ++ 0#2

def uimmLdsp (c : BitVec 16) : BitVec 9 := field c 2 3 ++ field c 12 1 ++ field c 5 2 ++ 0#3

def uimmSwsp (c : BitVec 16) : BitVec 8 := field c 7 2 ++ field c 9 4 ++ 0#2

def uimmSdsp (c : BitVec 16) : BitVec 9 := field c 7 3 ++ field c 10 3 ++ 0#3

/-- C.SUB, C.XOR, C.OR, C.AND, C.SUBW and C.ADDW, by bits 12, 6 and 5. -/
def expandCA (c : BitVec 16) : Option Comp :=
  let rd := creg (field c 7 3)
  let rs2 := creg (field c 2 3)
  match field c 12 1, field c 5 2 with
  | 0, 0b00 => some (.reg .sub rd rd rs2)
  | 0, 0b01 => some (.reg .xor rd rd rs2)
  | 0, 0b10 => some (.reg .or rd rd rs2)
  | 0, 0b11 => some (.reg .and rd rd rs2)
  | 1, 0b00 => some (.regW .sub rd rd rs2)
  | 1, 0b01 => some (.regW .add rd rd rs2)
  | _, _ => none

/-- C.JR, C.MV, C.EBREAK, C.JALR and C.ADD. -/
def expandCR (c : BitVec 16) : Option Inst :=
  let rd := field c 7 5
  let rs2 := field c 2 5
  if field c 12 1 = 0 then
    if rs2 = 0 then
      if rd = 0 then none else some (.jalr 0 rd 0)
    else some (.comp (.reg .add rd 0 rs2))
  else if rs2 = 0 then
    if rd = 0 then some .ebreak else some (.jalr 1 rd 0)
  else some (.comp (.reg .add rd rd rs2))

/-- The quadrant `00`, by bits 15 to 13. -/
def expand0 (c : BitVec 16) : Option Inst :=
  let rs1 := creg (field c 7 3)
  let rd := creg (field c 2 3)
  match field c 13 3 with
  | 0b000 =>
    if uimmAddi4spn c = 0 then none
    else some (.comp (.opImm .add rd 2 ((uimmAddi4spn c).setWidth 12)))
  | 0b010 => some (.load .word false rd rs1 ((uimmW c).setWidth 12))
  | 0b011 => some (.load .double false rd rs1 ((uimmD c).setWidth 12))
  | 0b110 => some (.store .word rs1 rd ((uimmW c).setWidth 12))
  | 0b111 => some (.store .double rs1 rd ((uimmD c).setWidth 12))
  | _ => none

/-- The quadrant `01`. -/
def expand1 (c : BitVec 16) : Option Inst :=
  let rd := field c 7 5
  let rs1 := creg (field c 7 3)
  match field c 13 3 with
  | 0b000 => some (.comp (.opImm .add rd rd ((imm6 c).signExtend 12)))
  | 0b001 => if rd = 0 then none else some (.comp (.addiw rd rd ((imm6 c).signExtend 12)))
  | 0b010 => some (.comp (.opImm .add rd 0 ((imm6 c).signExtend 12)))
  | 0b011 =>
    if rd = 2 then
      if immAddi16sp c = 0 then none
      else some (.comp (.opImm .add 2 2 ((immAddi16sp c).signExtend 12)))
    else if imm6 c = 0 then none
    else some (.comp (.lui rd ((imm6 c).signExtend 20)))
  | 0b100 =>
    match field c 10 2 with
    | 0b00 => some (.comp (.shiftImm .srl rs1 rs1 (imm6 c)))
    | 0b01 => some (.comp (.shiftImm .sra rs1 rs1 (imm6 c)))
    | 0b10 => some (.comp (.opImm .and rs1 rs1 ((imm6 c).signExtend 12)))
    | 0b11 => (expandCA c).map .comp
    | _ => none
  | 0b101 => some (.jal 0 ((immJ c).signExtend 20))
  | 0b110 => some (.branch .eq rs1 0 ((immB c).signExtend 12))
  | 0b111 => some (.branch .ne rs1 0 ((immB c).signExtend 12))
  | _ => none

/-- The quadrant `10`. -/
def expand2 (c : BitVec 16) : Option Inst :=
  let rd := field c 7 5
  let rs2 := field c 2 5
  match field c 13 3 with
  | 0b000 => some (.comp (.shiftImm .sll rd rd (imm6 c)))
  | 0b010 => if rd = 0 then none else some (.load .word false rd 2 ((uimmLwsp c).setWidth 12))
  | 0b011 => if rd = 0 then none else some (.load .double false rd 2 ((uimmLdsp c).setWidth 12))
  | 0b100 => expandCR c
  | 0b110 => some (.store .word 2 rs2 ((uimmSwsp c).setWidth 12))
  | 0b111 => some (.store .double 2 rs2 ((uimmSdsp c).setWidth 12))
  | _ => none

/-- The expansion of a 16-bit encoding; none for a reserved or a floating-point one. -/
def expand (c : BitVec 16) : Option Inst :=
  match field c 0 2 with
  | 0b00 => expand0 c
  | 0b01 => expand1 c
  | 0b10 => expand2 c
  | _ => none

/-! Extensions of an immediate in two steps. -/

theorem signExtend_setWidth {n m : Nat} (x : BitVec n) (h : n < m) :
    (x.setWidth m).signExtend 64 = x.setWidth 64 := by
  have hmsb : (x.setWidth m).msb = false := by
    rw [BitVec.msb_eq_getLsbD_last, BitVec.getLsbD_setWidth,
      BitVec.getLsbD_of_ge _ _ (by omega : n ≤ m - 1), Bool.and_false]
  rw [BitVec.signExtend_eq_setWidth_of_msb_false hmsb, BitVec.setWidth_setWidth (by omega)]

theorem signExtend_signExtend {n m : Nat} (x : BitVec n) (h : n ≤ m) (hm : m ≤ 64) :
    (x.signExtend m).signExtend 64 = x.signExtend 64 := by
  refine BitVec.eq_of_toInt_eq ?_
  rw [BitVec.toInt_signExtend_of_le hm, BitVec.toInt_signExtend_of_le h,
    BitVec.toInt_signExtend_of_le (Nat.le_trans h hm)]

/-- The offset of a jump or the value of `lui`, of which the sign is extended early. -/
theorem signExtend_append {n m k : Nat} (x : BitVec n) (hn : 0 < n) (h : n ≤ m) :
    (x.signExtend m ++ 0#k).signExtend 64 = (x ++ 0#k).signExtend 64 := by
  refine BitVec.eq_of_getLsbD_eq fun i hi => ?_
  simp only [BitVec.getLsbD_signExtend, BitVec.getLsbD_append, BitVec.msb_append,
    BitVec.msb_signExtend, BitVec.getLsbD_zero]
  grind

end NextEmu.Lib.RiscV.Compressed
