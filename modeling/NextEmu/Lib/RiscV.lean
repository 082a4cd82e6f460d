import Mathlib.Algebra.Order.Ring.Int

/-!
# The integer instructions of RV64IM

The manual's meaning of the instructions, in the integers: an operand is read as a
signed or an unsigned number, the operation is one on numbers, and the result is cut
to the width of the operation. `encode` lays the fields of a computational instruction
out in a word. An instruction has one `Effect`, which depends on its length because
the next PC and the link do.
-/

namespace NextEmu.Lib.RiscV

abbrev Reg := BitVec 5

/-- The register-register operations. -/
inductive AluOp
  | add | sub | sll | slt | sltu | xor | srl | sra | or | and
  | mul | mulh | mulhsu | mulhu | div | divu | rem | remu
  deriving DecidableEq, Repr

/-- The value of an operation on operands of `w` bits, a power of two. -/
def AluOp.value {w : Nat} (op : AluOp) (a b : BitVec w) : BitVec w :=
  match op with
  | .add => .ofInt w (a.toInt + b.toInt)
  | .sub => .ofInt w (a.toInt - b.toInt)
  | .sll => .ofNat w (a.toNat * 2 ^ (b.toNat % w))
  | .slt => if a.toInt < b.toInt then 1 else 0
  | .sltu => if a.toNat < b.toNat then 1 else 0
  | .xor => a ^^^ b
  | .srl => .ofNat w (a.toNat / 2 ^ (b.toNat % w))
  | .sra => .ofInt w (a.toInt / 2 ^ (b.toNat % w))
  | .or => a ||| b
  | .and => a &&& b
  | .mul => .ofInt w (a.toInt * b.toInt)
  -- the upper halves of the products
  | .mulh => .ofInt w (a.toInt * b.toInt / 2 ^ w)
  | .mulhsu => .ofInt w (a.toInt * b.toNat / 2 ^ w)
  | .mulhu => .ofNat w (a.toNat * b.toNat / 2 ^ w)
  -- division by zero and the signed overflow have fixed results
  | .div =>
    if b = 0 then -1
    else if a = BitVec.intMin w ∧ b = -1 then a
    else .ofInt w (a.toInt.tdiv b.toInt)
  | .divu => if b = 0 then BitVec.allOnes w else .ofNat w (a.toNat / b.toNat)
  | .rem =>
    if b = 0 then a
    else if a = BitVec.intMin w ∧ b = -1 then 0
    else .ofInt w (a.toInt.tmod b.toInt)
  | .remu => if b = 0 then a else .ofNat w (a.toNat % b.toNat)

def AluOp.funct3 : AluOp → BitVec 3
  | .add | .sub | .mul => 0b000
  | .sll | .mulh => 0b001
  | .slt | .mulhsu => 0b010
  | .sltu | .mulhu => 0b011
  | .xor | .div => 0b100
  | .srl | .sra | .divu => 0b101
  | .or | .rem => 0b110
  | .and | .remu => 0b111

def AluOp.funct7 : AluOp → BitVec 7
  | .sub | .sra => 0b0100000
  | .mul | .mulh | .mulhsu | .mulhu | .div | .divu | .rem | .remu => 0b0000001
  | _ => 0b0000000

/-- The operations with a 12-bit immediate. -/
inductive ImmOp
  | add | slt | sltu | xor | or | and
  deriving DecidableEq, Repr

def ImmOp.toAlu : ImmOp → AluOp
  | .add => .add
  | .slt => .slt
  | .sltu => .sltu
  | .xor => .xor
  | .or => .or
  | .and => .and

/-- The shifts by a constant. -/
inductive ShiftOp
  | sll | srl | sra
  deriving DecidableEq, Repr

def ShiftOp.toAlu : ShiftOp → AluOp
  | .sll => .sll
  | .srl => .srl
  | .sra => .sra

/-- The operations that have a 32-bit form. -/
inductive WordOp
  | add | sub | sll | srl | sra | mul | div | divu | rem | remu
  deriving DecidableEq, Repr

def WordOp.toAlu : WordOp → AluOp
  | .add => .add
  | .sub => .sub
  | .sll => .sll
  | .srl => .srl
  | .sra => .sra
  | .mul => .mul
  | .div => .div
  | .divu => .divu
  | .rem => .rem
  | .remu => .remu

/-- A 32-bit operation on the low halves of two registers, with its result sign-extended. -/
def AluOp.wordValue (op : AluOp) (a b : BitVec 64) : BitVec 64 :=
  (op.value (a.setWidth 32) (b.setWidth 32)).signExtend 64

/-! ## Computational instructions -/

/-- The instructions that compute the value of one register. -/
inductive Comp
  | lui (rd : Reg) (imm : BitVec 20)
  | auipc (rd : Reg) (imm : BitVec 20)
  | opImm (op : ImmOp) (rd rs1 : Reg) (imm : BitVec 12)
  | shiftImm (op : ShiftOp) (rd rs1 : Reg) (shamt : BitVec 6)
  | addiw (rd rs1 : Reg) (imm : BitVec 12)
  | shiftImmW (op : ShiftOp) (rd rs1 : Reg) (shamt : BitVec 5)
  | reg (op : AluOp) (rd rs1 rs2 : Reg)
  | regW (op : WordOp) (rd rs1 rs2 : Reg)
  deriving DecidableEq, Repr

namespace Comp

def rd : Comp → Reg
  | lui rd _ | auipc rd _ | opImm _ rd _ _ | shiftImm _ rd _ _ | addiw rd _ _
  | shiftImmW _ rd _ _ | reg _ rd _ _ | regW _ rd _ _ => rd

/-- The value for `rd`, of the registers and the PC. -/
def value (x : Reg → BitVec 64) (pc : BitVec 64) : Comp → BitVec 64
  | lui _ imm => (imm ++ 0#12).signExtend 64
  | auipc _ imm => pc + (imm ++ 0#12).signExtend 64
  | opImm op _ rs1 imm => op.toAlu.value (x rs1) (imm.signExtend 64)
  | shiftImm op _ rs1 shamt => op.toAlu.value (x rs1) (shamt.setWidth 64)
  | addiw _ rs1 imm => AluOp.wordValue .add (x rs1) (imm.signExtend 64)
  | shiftImmW op _ rs1 shamt => op.toAlu.wordValue (x rs1) (shamt.setWidth 64)
  | reg op _ rs1 rs2 => op.value (x rs1) (x rs2)
  | regW op _ rs1 rs2 => op.toAlu.wordValue (x rs1) (x rs2)

end Comp

/-! The formats. -/

def rType (funct7 : BitVec 7) (rs2 rs1 : Reg) (funct3 : BitVec 3) (rd : Reg) (opcode : BitVec 7) :
    BitVec 32 := funct7 ++ rs2 ++ rs1 ++ funct3 ++ rd ++ opcode

def iType (imm : BitVec 12) (rs1 : Reg) (funct3 : BitVec 3) (rd : Reg) (opcode : BitVec 7) :
    BitVec 32 := imm ++ rs1 ++ funct3 ++ rd ++ opcode

def uType (imm : BitVec 20) (rd : Reg) (opcode : BitVec 7) : BitVec 32 := imm ++ rd ++ opcode

/-- The word of an instruction. -/
def Comp.encode : Comp → BitVec 32
  | lui rd imm => uType imm rd 0b0110111
  | auipc rd imm => uType imm rd 0b0010111
  | opImm op rd rs1 imm => iType imm rs1 op.toAlu.funct3 rd 0b0010011
  | shiftImm op rd rs1 shamt =>
    iType (op.toAlu.funct7.extractLsb' 1 6 ++ shamt) rs1 op.toAlu.funct3 rd 0b0010011
  | addiw rd rs1 imm => iType imm rs1 0b000 rd 0b0011011
  | shiftImmW op rd rs1 shamt =>
    iType (op.toAlu.funct7 ++ shamt) rs1 op.toAlu.funct3 rd 0b0011011
  | reg op rd rs1 rs2 => rType op.funct7 rs2 rs1 op.funct3 rd 0b0110011
  | regW op rd rs1 rs2 => rType op.toAlu.funct7 rs2 rs1 op.toAlu.funct3 rd 0b0111011

/-! ## All instructions -/

/-- The width of a memory access. -/
inductive Width
  | byte | half | word | double
  deriving DecidableEq, Repr

def Width.bytes : Width → Nat
  | .byte => 1
  | .half => 2
  | .word => 4
  | .double => 8

/-- A loaded value in a register. -/
def extend (unsigned : Bool) {n : Nat} (v : BitVec n) : BitVec 64 :=
  if unsigned then v.setWidth 64 else v.signExtend 64

inductive BranchOp
  | eq | ne | lt | ge | ltu | geu
  deriving DecidableEq, Repr

def BranchOp.taken (op : BranchOp) (a b : BitVec 64) : Bool :=
  match op with
  | .eq => a == b
  | .ne => a != b
  | .lt => decide (a.toInt < b.toInt)
  | .ge => decide (b.toInt ≤ a.toInt)
  | .ltu => decide (a.toNat < b.toNat)
  | .geu => decide (b.toNat ≤ a.toNat)

/-- An instruction; `unsigned` loads are extended with zeros. The offsets of `jal` and `branch`
count halfwords. -/
inductive Inst
  | comp (i : Comp)
  | load (width : Width) (unsigned : Bool) (rd rs1 : Reg) (imm : BitVec 12)
  | store (width : Width) (rs1 rs2 : Reg) (imm : BitVec 12)
  | jal (rd : Reg) (imm : BitVec 20)
  | jalr (rd rs1 : Reg) (imm : BitVec 12)
  | branch (op : BranchOp) (rs1 rs2 : Reg) (imm : BitVec 12)
  | ebreak
  deriving DecidableEq, Repr

/-- Whether the instruction is a load or a store. -/
def Inst.isMemory : Inst → Bool
  | .load .. | .store .. => true
  | _ => false

/-- What an instruction does: it writes a register and falls through, writes a link and goes
on at a target, loads, stores, or raises the breakpoint exception. -/
inductive Effect
  | write (rd : Reg) (value : BitVec 64)
  | jump (rd : Reg) (link target : BitVec 64)
  | load (rd : Reg) (addr : BitVec 64) (width : Width) (unsigned : Bool)
  | store (addr : BitVec 64) (width : Width) (data : BitVec 64)
  | breakpoint

/-- The effect of an instruction of `len` bytes. -/
def Inst.effect (len : BitVec 64) (x : Reg → BitVec 64) (pc : BitVec 64) : Inst → Effect
  | comp i => .write i.rd (i.value x pc)
  | load width unsigned rd rs1 imm => .load rd (x rs1 + imm.signExtend 64) width unsigned
  | store width rs1 rs2 imm => .store (x rs1 + imm.signExtend 64) width (x rs2)
  | jal rd imm => .jump rd (pc + len) (pc + (imm ++ 0#1).signExtend 64)
  | jalr rd rs1 imm => .jump rd (pc + len) ((x rs1 + imm.signExtend 64) &&& ~~~ 1)
  | branch op rs1 rs2 imm =>
    .jump 0 (pc + len)
      (if op.taken (x rs1) (x rs2) then pc + (imm ++ 0#1).signExtend 64 else pc + len)
  | ebreak => .breakpoint

/-! ## The operations on words

What the operations are in terms of those of `BitVec`, which wrap. -/

section Values

variable {w : Nat} (a b : BitVec w)

theorem setWidth_ofInt {v : Nat} (h : v ≤ w) (y : Int) :
    (BitVec.ofInt w y).setWidth v = BitVec.ofInt v y := by
  have hdvd : ((2 ^ v : Nat) : Int) ∣ ((2 ^ w : Nat) : Int) :=
    Int.natCast_dvd_natCast.mpr (Nat.pow_dvd_pow 2 h)
  have hpos : (0 : Int) ≤ y % ((2 ^ w : Nat) : Int) :=
    Int.emod_nonneg _ (Int.natCast_ne_zero.mpr (Nat.ne_of_gt (Nat.two_pow_pos w)))
  refine BitVec.eq_of_toNat_eq ?_
  rw [BitVec.toNat_setWidth, BitVec.toNat_ofInt, BitVec.toNat_ofInt,
    ← Int.emod_emod_of_dvd y hdvd, Int.toNat_emod hpos (Int.natCast_nonneg _), Int.toNat_natCast]

theorem emod_mul_ediv (y : Int) {m : Int} (hm : 0 < m) : y % (m * m) / m = y / m % m := by
  have hsplit : y % (m * m) = y + m * (-(m * (y / (m * m)))) := by
    rw [Int.emod_def, Int.mul_assoc, Int.mul_neg]
    rfl
  rw [hsplit, Int.add_mul_ediv_left _ _ (Int.ne_of_gt hm), Int.emod_def,
    ← Int.ediv_ediv_of_nonneg (Int.le_of_lt hm)]
  rfl

/-- The upper half of a product of double width. -/
theorem upper_half (y : Int) :
    ((BitVec.ofInt (w + w) y) >>> w).setWidth w = BitVec.ofInt w (y / 2 ^ w) := by
  have hm : (0 : Int) < ((2 ^ w : Nat) : Int) := Int.natCast_pos.mpr (Nat.two_pow_pos w)
  have hpow : ((2 ^ (w + w) : Nat) : Int) = ((2 ^ w : Nat) : Int) * ((2 ^ w : Nat) : Int) := by
    rw [Nat.pow_add, Int.natCast_mul]
  have hcast : (2 ^ w : Int) = ((2 ^ w : Nat) : Int) := by norm_cast
  have hpos : (0 : Int) ≤ y % (((2 ^ w : Nat) : Int) * ((2 ^ w : Nat) : Int)) :=
    Int.emod_nonneg _ (Int.ne_of_gt (Int.mul_pos hm hm))
  refine BitVec.eq_of_toNat_eq ?_
  rw [BitVec.toNat_setWidth, BitVec.toNat_ushiftRight, BitVec.toNat_ofInt, BitVec.toNat_ofInt,
    hpow, hcast, ← emod_mul_ediv y hm, Nat.shiftRight_eq_div_pow]
  have hlt : (y % (((2 ^ w : Nat) : Int) * ((2 ^ w : Nat) : Int)) / ((2 ^ w : Nat) : Int)) <
      ((2 ^ w : Nat) : Int) := by
    rw [emod_mul_ediv y hm]
    exact Int.emod_lt_of_pos _ hm
  obtain ⟨n, hn⟩ := Int.eq_ofNat_of_zero_le hpos
  rw [hn] at hlt ⊢
  rw [← Int.natCast_ediv] at hlt ⊢
  rw [Int.toNat_natCast, Int.toNat_natCast, Nat.mod_eq_of_lt (Int.ofNat_lt.mp hlt)]

theorem value_add : AluOp.add.value a b = a + b := by
  simp only [AluOp.value, BitVec.ofInt_add, BitVec.ofInt_toInt]

theorem value_sub : AluOp.sub.value a b = a - b := by
  simp only [AluOp.value, Int.sub_eq_add_neg, BitVec.ofInt_add, BitVec.ofInt_neg,
    BitVec.ofInt_toInt, BitVec.sub_eq_add_neg]

theorem value_mul : AluOp.mul.value a b = a * b := by
  simp only [AluOp.value, BitVec.ofInt_mul, BitVec.ofInt_toInt]

theorem value_mulh : AluOp.mulh.value a b =
    ((a.signExtend (w + w) * b.signExtend (w + w)) >>> w).setWidth w := by
  simp only [AluOp.value, BitVec.signExtend, ← BitVec.ofInt_mul, upper_half]

theorem value_mulhsu : AluOp.mulhsu.value a b =
    ((a.signExtend (w + w) * b.setWidth (w + w)) >>> w).setWidth w := by
  have hb : b.setWidth (w + w) = BitVec.ofInt (w + w) b.toNat := by
    rw [BitVec.ofInt_natCast, BitVec.ofNat_toNat]
  simp only [AluOp.value, BitVec.signExtend, hb, ← BitVec.ofInt_mul, upper_half]

theorem value_mulhu : AluOp.mulhu.value a b =
    ((a.setWidth (w + w) * b.setWidth (w + w)) >>> w).setWidth w := by
  have hext : ∀ c : BitVec w, c.setWidth (w + w) = BitVec.ofInt (w + w) c.toNat := fun c => by
    rw [BitVec.ofInt_natCast, BitVec.ofNat_toNat]
  have hcast : (((a.toNat * b.toNat / 2 ^ w : Nat)) : Int) = (a.toNat : Int) * b.toNat / 2 ^ w := by
    norm_cast
  rw [hext a, hext b, ← BitVec.ofInt_mul, upper_half, ← hcast, BitVec.ofInt_natCast]
  rfl

theorem value_sll : AluOp.sll.value a b = a <<< (b.toNat % w) := by
  refine BitVec.eq_of_toNat_eq ?_
  simp only [AluOp.value, BitVec.toNat_ofNat, BitVec.toNat_shiftLeft, Nat.shiftLeft_eq]

theorem value_srl : AluOp.srl.value a b = a >>> (b.toNat % w) := by
  refine BitVec.eq_of_toNat_eq ?_
  have hlt : a.toNat / 2 ^ (b.toNat % w) < 2 ^ w :=
    Nat.lt_of_le_of_lt (Nat.div_le_self _ _) a.isLt
  simp only [AluOp.value, BitVec.toNat_ofNat, BitVec.toNat_ushiftRight,
    Nat.shiftRight_eq_div_pow, Nat.mod_eq_of_lt hlt]

theorem value_sra : AluOp.sra.value a b = a.sshiftRight (b.toNat % w) := by
  simp only [AluOp.value, BitVec.sshiftRight, Int.shiftRight_eq_div_pow]
  norm_cast

theorem value_slt : AluOp.slt.value a b = if a.slt b then 1 else 0 := by
  simp only [AluOp.value, BitVec.slt, decide_eq_true_eq]

theorem value_sltu : AluOp.sltu.value a b = if a.ult b then 1 else 0 := by
  simp only [AluOp.value, BitVec.ult, decide_eq_true_eq]

theorem sdiv_eq_ofInt : a.sdiv b = BitVec.ofInt w (a.toInt.tdiv b.toInt) := by
  refine BitVec.eq_of_toInt_eq ?_
  rw [BitVec.toInt_ofInt, BitVec.toInt_sdiv]

theorem srem_eq_ofInt : a.srem b = BitVec.ofInt w (a.toInt.tmod b.toInt) := by
  rw [← BitVec.toInt_srem, BitVec.ofInt_toInt]

theorem value_div : AluOp.div.value a b =
    if b = 0 then -1 else if a = BitVec.intMin w ∧ b = -1 then a else a.sdiv b := by
  rw [sdiv_eq_ofInt]
  rfl

theorem value_rem : AluOp.rem.value a b =
    if b = 0 then a else if a = BitVec.intMin w ∧ b = -1 then 0 else a.srem b := by
  rw [srem_eq_ofInt]
  rfl

theorem value_divu : AluOp.divu.value a b = if b = 0 then BitVec.allOnes w else a / b := by
  have hdiv : BitVec.ofNat w (a.toNat / b.toNat) = a / b := by
    rw [← BitVec.toNat_udiv, BitVec.ofNat_toNat, BitVec.setWidth_eq]
  simp only [AluOp.value, hdiv]

theorem value_remu : AluOp.remu.value a b = if b = 0 then a else a % b := by
  have hrem : BitVec.ofNat w (a.toNat % b.toNat) = a % b := by
    rw [← BitVec.toNat_umod, BitVec.ofNat_toNat, BitVec.setWidth_eq]
  simp only [AluOp.value, hrem]

end Values

end NextEmu.Lib.RiscV
