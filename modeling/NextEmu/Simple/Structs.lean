import NextEmu.Lib.BitField

/-!
# Modes, causes and control registers

`misc/rv64_structs.h` and `misc/rv64_csr_structs.h` of `rvcore_simple`. A C
bit-field structure over a 64-bit register is a table of bit positions; code that
reads the register through two structures reads it through two tables.
-/

namespace NextEmu.Simple

open NextEmu.Lib.BitField

/-- `PrivMode_e`. -/
inductive PrivMode
  | uMode
  | sMode
  | hMode
  | mMode
  deriving DecidableEq, Repr, Inhabited

namespace PrivMode

def toBits : PrivMode → BitVec 2
  | uMode => 0
  | sMode => 1
  | hMode => 2
  | mMode => 3

/-- The cast of a two-bit field to `PrivMode_e`. -/
def ofBits (b : BitVec 2) : PrivMode :=
  match b with
  | 0 => uMode
  | 1 => sMode
  | 2 => hMode
  | _ => mMode

/-- The value that the comparisons of the source compare. -/
def level (p : PrivMode) : Nat := p.toBits.toNat

/-- The modes that the core implements. -/
def Implemented (p : PrivMode) : Prop := p = uMode ∨ p = sMode ∨ p = mMode

end PrivMode

/-! `RV64_ExecFeedbackCode_e`, by its numbers. -/

namespace Exec

def instrMisalign : BitVec 63 := 0
def instrAccFault : BitVec 63 := 1
def illegalInstr : BitVec 63 := 2
def breakpoint : BitVec 63 := 3
def loadMisalign : BitVec 63 := 4
def loadAccFault : BitVec 63 := 5
def storeMisalign : BitVec 63 := 6
def storeAccFault : BitVec 63 := 7
def ecallFromUser : BitVec 63 := 8
def ecallFromSupervisor : BitVec 63 := 9
def ecallFromMachine : BitVec 63 := 11
def instrPgfault : BitVec 63 := 12
def loadPgfault : BitVec 63 := 13
def storePgfault : BitVec 63 := 15
def ok : BitVec 63 := 24

end Exec

/-- `CSReg_Cause_t`. -/
structure Cause where
  cause : BitVec 63
  interrupt : Bool
  deriving DecidableEq, Repr

def Cause.val (c : Cause) : BitVec 64 := BitVec.ofBool c.interrupt ++ c.cause

/-- A synchronous exception. -/
abbrev exception (code : BitVec 63) : Cause := { cause := code, interrupt := false }

/-- `IntType_e`, less `int_no_int`. -/
inductive IntType
  | sSw
  | mSw
  | sTimer
  | mTimer
  | sExt
  | mExt
  deriving DecidableEq, Repr

namespace IntType

def code : IntType → Nat
  | sSw => 1
  | mSw => 3
  | sTimer => 5
  | mTimer => 7
  | sExt => 9
  | mExt => 11

def cause (i : IntType) : BitVec 63 := BitVec.ofNat 63 i.code

end IntType

/-- `int_no_int`, which is the number of `exec_ok`. -/
def intNoInt : BitVec 63 := 24

/-- `bits_to_int_type`: MEI, MSI, MTI, SEI, SSI, STI; `none` is `int_no_int`. -/
def bitsToIntType (intBits : BitVec 64) : Option IntType :=
  if intBits.getLsbD 11 then some .mExt
  else if intBits.getLsbD 3 then some .mSw
  else if intBits.getLsbD 7 then some .mTimer
  else if intBits.getLsbD 9 then some .sExt
  else if intBits.getLsbD 1 then some .sSw
  else if intBits.getLsbD 5 then some .sTimer
  else none

/-- The cause that a (possibly absent) interrupt is stored as. -/
def intCause (i : Option IntType) : Cause where
  cause := (i.map IntType.cause).getD intNoInt
  interrupt := true

def sModeIntMask : BitVec 64 := 1#64 <<< 9 ||| 1#64 <<< 1 ||| 1#64 <<< 5
def counterMask : BitVec 64 := 1#64 <<< 0 ||| 1#64 <<< 2
def sModeExcMask : BitVec 64 := 1#64 <<< 16 - 1 - 1#64 <<< 11
def mModeIntMask : BitVec 64 := sModeIntMask ||| 1#64 <<< 11 ||| 1#64 <<< 3 ||| 1#64 <<< 7

/-! `CSReg_MStatus_t`: the position of each field; two-bit fields by their low bit. -/

namespace MStatus

def blank0 : Nat := 0
def sie : Nat := 1
def blank1 : Nat := 2
def mie : Nat := 3
def blank2 : Nat := 4
def spie : Nat := 5
def ube : Nat := 6
def mpie : Nat := 7
def spp : Nat := 8
def vs : Nat := 9
def mpp : Nat := 11
def fs : Nat := 13
def xs : Nat := 15
def mprv : Nat := 17
def sum : Nat := 18
def mxr : Nat := 19
def tvm : Nat := 20
def tw : Nat := 21
def tsr : Nat := 22
def blank3 : Nat := 23
def uxl : Nat := 32
def sxl : Nat := 34
def sbe : Nat := 36
def mbe : Nat := 37
def blank4 : Nat := 38
def sd : Nat := 63

end MStatus

/-! `CSReg_SStatus_t`, the view of the same register that S mode has. -/

namespace SStatus

def sie : Nat := 1
def spie : Nat := 5
def ube : Nat := 6
def spp : Nat := 8
def vs : Nat := 9
def fs : Nat := 13
def xs : Nat := 15
def sum : Nat := 18
def mxr : Nat := 19
def uxl : Nat := 32
def sd : Nat := 63

end SStatus

/-! `SATP_Reg_t`. -/

namespace Satp

def ppn (satp : BitVec 64) : BitVec 44 := field satp 0 44
def asid (satp : BitVec 64) : BitVec 16 := field satp 44 16
def mode (satp : BitVec 64) : BitVec 4 := field satp 60 4

end Satp

/-! `CSReg_TrapVector_t`. -/

namespace TrapVector

def mode (tvec : BitVec 64) : BitVec 2 := field tvec 0 2
def base (tvec : BitVec 64) : BitVec 62 := field tvec 2 62

end TrapVector

/-- The CSRs that `csrRead` or `csrWrite` knows, out of `RV_CSR_Addr_enum`. -/
inductive CSRAddr
  | cycle | time
  | sstatus | sie | stvec | scounteren
  | sscratch | sepc | scause | stval | sip
  | satp
  | mvendorid | marchid | mimpid | mhartid | mconfigptr
  | mstatus | misa | medeleg | mideleg | mie | mtvec | mcounteren
  | mscratch | mepc | mcause | mtval | mip
  | mcycle | minstret
  | tselect | tdata1
  deriving DecidableEq, Repr

/-- The case of the two `switch`es that a CSR number selects; `none` is `default`. -/
def CSRAddr.ofNumber (n : BitVec 12) : Option CSRAddr :=
  match n with
  | 0xc00 => some .cycle
  | 0xc01 => some .time
  | 0x100 => some .sstatus
  | 0x104 => some .sie
  | 0x105 => some .stvec
  | 0x106 => some .scounteren
  | 0x140 => some .sscratch
  | 0x141 => some .sepc
  | 0x142 => some .scause
  | 0x143 => some .stval
  | 0x144 => some .sip
  | 0x180 => some .satp
  | 0xf11 => some .mvendorid
  | 0xf12 => some .marchid
  | 0xf13 => some .mimpid
  | 0xf14 => some .mhartid
  | 0xf15 => some .mconfigptr
  | 0x300 => some .mstatus
  | 0x301 => some .misa
  | 0x302 => some .medeleg
  | 0x303 => some .mideleg
  | 0x304 => some .mie
  | 0x305 => some .mtvec
  | 0x306 => some .mcounteren
  | 0x340 => some .mscratch
  | 0x341 => some .mepc
  | 0x342 => some .mcause
  | 0x343 => some .mtval
  | 0x344 => some .mip
  | 0xb00 => some .mcycle
  | 0xb02 => some .minstret
  | 0x7a0 => some .tselect
  | 0x7a1 => some .tdata1
  | _ => none

end NextEmu.Simple
