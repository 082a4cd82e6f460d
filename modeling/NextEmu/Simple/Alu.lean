import NextEmu.Simple.Inst
import NextEmu.Simple.State

/-!
# The ALU

`rv64_alu.cpp`. Signed 64-bit arithmetic wraps; a conversion to `int32_t` keeps the
low half and extends its sign; 128-bit products are computed at width 128.
-/

namespace NextEmu.Simple

/-- The conversion `(int32_t)x`, back at 64 bits. -/
def int32 (x : BitVec 64) : BitVec 64 := (x.setWidth 32).signExtend 64

/-- The `switch` of `alu_exec`, on operands that are already cut for `op_32`. -/
def aluSwitch (a b : BitVec 64) (op : ALUOp) (op32 : Bool) : Option (BitVec 64) :=
  let shamt := (b &&& (if op32 then 0x1f else 0x3f)).toNat
  match op with
  | .add => some (a + b)
  | .sub => some (a - b)
  | .sll => some (a <<< shamt)
  | .slt => some (if a.slt b then 1 else 0)
  | .sltu => some (if a.ult b then 1 else 0)
  | .xor => some (a ^^^ b)
  | .srl => some ((if op32 then a &&& 0xffffffff else a) >>> shamt)
  | .sra => some (a.sshiftRight shamt)
  | .or => some (a ||| b)
  | .and => some (a &&& b)
  | .mul => some (a * b)
  | .mulh => some (((a.signExtend 128 * b.signExtend 128).sshiftRight 64).setWidth 64)
  | .mulhu => some (((a.setWidth 128 * b.setWidth 128) >>> 64).setWidth 64)
  -- the signed factor is converted to the unsigned type of the other one
  | .mulhsu => some (((a.signExtend 128 * b.setWidth 128) >>> 64).setWidth 64)
  | .div =>
    if b = 0 then some (-1)
    else if a = BitVec.intMin 64 ∧ b = -1 then some (BitVec.intMin 64)
    else some (a.sdiv b)
  | .divu =>
    if b = 0 then some (BitVec.allOnes 64)
    else if op32 then some ((a.setWidth 32 / b.setWidth 32).setWidth 64)
    else some (a / b)
  | .rem =>
    if b = 0 then some a
    else if a = BitVec.intMin 64 ∧ b = -1 then some 0
    else some (a.srem b)
  | .remu =>
    if b = 0 then some a
    else if op32 then some ((a.setWidth 32 % b.setWidth 32).setWidth 64)
    else some (a % b)
  | .nop => none

/-- The value of `alu_exec`; `none` where its assertion fails. -/
def aluValue (a b : BitVec 64) (op : ALUOp) (op32 : Bool) : Option (BitVec 64) :=
  if op32 then (aluSwitch (int32 a) (int32 b) op true).map int32
  else aluSwitch a b op false

/-- `alu_exec`. -/
def aluExec {β : Type} (a b : BitVec 64) (op : ALUOp) (op32 : Bool) : Emu β (BitVec 64) :=
  match aluValue a b op op32 with
  | some result => pure result
  | none => throw .aluOp

end NextEmu.Simple
