import Mathlib.Algebra.Order.Ring.Int
import NextEmu.Lib.ByteMemory
import NextEmu.Sdk.AddrBus

/-!
# The SRAM adapter

`sdk/base/SRAMAdapter.hpp`. A map sends device addresses to bytes of host memory. The buffer of
a call is other memory than the registered bytes, and is passed and returned.
-/

namespace NextEmu.Sdk

open Lib.ByteMemory

/-- What `std::map::at` throws. -/
inductive OutOfRange
  | outOfRange
  deriving DecidableEq, Repr

structure SRAMAdapter where
  addrRegMap : Addr → Option (BitVec 64)

namespace SRAMAdapter

/-- An adapter as constructed. -/
def empty : SRAMAdapter := ⟨fun _ => none⟩

/-- The first `n` turns of the loop of `regAddr`. -/
def regBytes (s : SRAMAdapter) (ptr : BitVec 64) (devAddr : Addr) : Nat → SRAMAdapter
  | 0 => s
  | i + 1 => ⟨Function.update (s.regBytes ptr devAddr i).addrRegMap (devAddr + BitVec.ofNat 64 i)
      (some (ptr + BitVec.ofNat 64 i))⟩

def regAddr (s : SRAMAdapter) (ptr : BitVec 64) (devAddr : Addr) (len : BitVec 64) : SRAMAdapter :=
  s.regBytes ptr devAddr len.toNat

/-- `addrRegMap.at`. -/
def at' (s : SRAMAdapter) (a : Addr) : Except OutOfRange (BitVec 64) :=
  match s.addrRegMap a with
  | some ptr => .ok ptr
  | none => .error .outOfRange

/-- The loop that only looks the addresses up. -/
def checkBytes (s : SRAMAdapter) (beginAddr : Addr) : Nat → Except OutOfRange Unit
  | 0 => .ok ()
  | i + 1 => do
    s.checkBytes beginAddr i
    let _ ← s.at' (beginAddr + BitVec.ofNat 64 i)
    return ()

/-- The loop of `load` that copies. -/
def loadBytes (s : SRAMAdapter) (mem : Memory 64) (beginAddr : Addr) (buffer : Nat → BitVec 8) :
    Nat → Except OutOfRange (Nat → BitVec 8)
  | 0 => .ok buffer
  | i + 1 => do
    let buffer ← s.loadBytes mem beginAddr buffer i
    let ptr ← s.at' (beginAddr + BitVec.ofNat 64 i)
    return Function.update buffer i (mem ptr)

/-- The loop of `store` that copies. -/
def storeBytes (s : SRAMAdapter) (mem : Memory 64) (beginAddr : Addr) (buffer : Nat → BitVec 8) :
    Nat → Except OutOfRange (Memory 64)
  | 0 => .ok mem
  | i + 1 => do
    let mem ← s.storeBytes mem beginAddr buffer i
    let ptr ← s.at' (beginAddr + BitVec.ofNat 64 i)
    return Function.update mem ptr (buffer i)

/-- `load`, with the buffer behind it. The loop that copies catches nothing. -/
def load (s : SRAMAdapter) (mem : Memory 64) (beginAddr : Addr) (len : BitVec 64)
    (buffer : Nat → BitVec 8) : Except OutOfRange (Feedback × (Nat → BitVec 8)) :=
  match s.checkBytes beginAddr len.toNat with
  | .error _ => .ok (.outOfRange, buffer)
  | .ok _ => do
    let buffer ← s.loadBytes mem beginAddr buffer len.toNat
    return (.success, buffer)

/-- `store`, with the host memory behind it. -/
def store (s : SRAMAdapter) (mem : Memory 64) (beginAddr : Addr) (len : BitVec 64)
    (buffer : Nat → BitVec 8) : Except OutOfRange (Feedback × Memory 64) :=
  match s.checkBytes beginAddr len.toNat with
  | .error _ => .ok (.outOfRange, mem)
  | .ok _ => do
    let mem ← s.storeBytes mem beginAddr buffer len.toNat
    return (.success, mem)

end SRAMAdapter

/-! ## The loops -/

namespace SRAMAdapter

section Loops

variable {s : SRAMAdapter} {mem : Memory 64} {b : Addr} {buffer : Nat → BitVec 8} {n : Nat}

/-- The byte behind each device address. -/
def contents (s : SRAMAdapter) (mem : Memory 64) : Memory 64 := fun a =>
  match s.addrRegMap a with
  | some ptr => mem ptr
  | none => 0

def Registered (s : SRAMAdapter) (a : Addr) : Prop := s.addrRegMap a ≠ none

/-- No two addresses have the same host byte. -/
def Distinct (s : SRAMAdapter) : Prop :=
  ∀ a a' ptr, s.addrRegMap a = some ptr → s.addrRegMap a' = some ptr → a = a'

theorem at_registered {a : Addr} (h : s.Registered a) :
    ∃ ptr, s.addrRegMap a = some ptr ∧ s.at' a = .ok ptr := by
  obtain ⟨ptr, hptr⟩ := Option.ne_none_iff_exists'.mp h
  refine ⟨ptr, hptr, ?_⟩
  rw [at', hptr]

theorem at_unregistered {a : Addr} (h : ¬ s.Registered a) : s.at' a = .error .outOfRange := by
  have hnone : s.addrRegMap a = none := Classical.not_not.mp h
  rw [at', hnone]

theorem checkBytes_ok (h : ∀ i, i < n → s.Registered (b + BitVec.ofNat 64 i)) :
    s.checkBytes b n = .ok () := by
  induction n with
  | zero => rfl
  | succ n ih =>
    obtain ⟨ptr, -, hat⟩ := at_registered (h n (Nat.lt_succ_self n))
    rw [checkBytes, ih fun i hi => h i (Nat.lt_succ_of_lt hi), hat]
    rfl

theorem checkBytes_error (h : ¬ ∀ i, i < n → s.Registered (b + BitVec.ofNat 64 i)) :
    s.checkBytes b n = .error .outOfRange := by
  induction n with
  | zero => exact absurd (fun i hi => absurd hi (Nat.not_lt_zero i)) h
  | succ n ih =>
    by_cases hbefore : ∀ i, i < n → s.Registered (b + BitVec.ofNat 64 i)
    · have hlast : ¬ s.Registered (b + BitVec.ofNat 64 n) := fun hlast => h fun i hi => by
        by_cases heq : i = n
        · rw [heq]
          exact hlast
        · exact hbefore i (by omega)
      rw [checkBytes, checkBytes_ok hbefore, at_unregistered hlast]
      rfl
    · rw [checkBytes, ih hbefore]
      rfl

theorem contents_eq {a : Addr} {ptr : BitVec 64} (h : s.addrRegMap a = some ptr) :
    s.contents mem a = mem ptr := by
  rw [contents, h]

theorem loadBytes_ok (h : ∀ i, i < n → s.Registered (b + BitVec.ofNat 64 i)) :
    s.loadBytes mem b buffer n =
      .ok fun i => if i < n then s.contents mem (b + BitVec.ofNat 64 i) else buffer i := by
  induction n with
  | zero => rfl
  | succ n ih =>
    obtain ⟨ptr, hptr, hat⟩ := at_registered (h n (Nat.lt_succ_self n))
    rw [loadBytes, ih fun i hi => h i (Nat.lt_succ_of_lt hi), hat]
    refine congrArg Except.ok (funext fun i => ?_)
    rw [Function.update_apply]
    by_cases heq : i = n
    · rw [if_pos heq, if_pos (by omega), heq, contents_eq hptr]
    · have hiff : i < n ↔ i < n + 1 := by omega
      rw [if_neg heq]
      by_cases hlt : i < n
      · rw [if_pos hlt, if_pos (hiff.mp hlt)]
      · rw [if_neg hlt, if_neg (hlt ∘ hiff.mpr)]

/-- Storing one byte through an address changes the byte of this address only. -/
theorem contents_update (hdistinct : s.Distinct) {a : Addr} {ptr : BitVec 64}
    (h : s.addrRegMap a = some ptr) (x : BitVec 8) (a' : Addr) :
    s.contents (Function.update mem ptr x) a' = if a' = a then x else s.contents mem a' := by
  cases hother : s.addrRegMap a' with
  | none =>
    have hne : a' ≠ a := fun heq => by
      rw [heq, h] at hother
      cases hother
    rw [if_neg hne, contents, contents, hother]
  | some ptr' =>
    rw [contents_eq hother, contents_eq hother, Function.update_apply]
    by_cases heq : a' = a
    · subst heq
      cases hother.symm.trans h
      rw [if_pos rfl, if_pos rfl]
    · have hne : ptr' ≠ ptr := fun hsame => heq (hdistinct a' a ptr (hsame ▸ hother) h)
      rw [if_neg hne, if_neg heq]

variable (mem buffer) in
/-- The bytes that are stored are those of one write. -/
theorem storeBytes_ok (hdistinct : s.Distinct) (hn : n ≤ 2 ^ 64)
    (h : ∀ i, i < n → s.Registered (b + BitVec.ofNat 64 i)) :
    ∃ mem', s.storeBytes mem b buffer n = .ok mem' ∧
      s.contents mem' = Write.apply ⟨b, n, readBytes buffer 0 n⟩ (s.contents mem) := by
  have hall : ∃ mem', s.storeBytes mem b buffer n = .ok mem' ∧ ∀ a,
      s.contents mem' a = if (a - b).toNat < n then buffer (a - b).toNat else s.contents mem a := by
    induction n with
    | zero => exact ⟨mem, rfl, fun a => (if_neg (Nat.not_lt_zero _)).symm⟩
    | succ n ih =>
      obtain ⟨mem', hstore, hcontents⟩ := ih (by omega) fun i hi => h i (Nat.lt_succ_of_lt hi)
      obtain ⟨ptr, hptr, hat⟩ := at_registered (h n (Nat.lt_succ_self n))
      refine ⟨Function.update mem' ptr (buffer n), ?_, fun a => ?_⟩
      · rw [storeBytes, hstore, hat]
        rfl
      · have hback : a = b + BitVec.ofNat 64 n ↔ (a - b).toNat = n := by
          rw [← BitVec.toNat_inj, BitVec.toNat_add, BitVec.toNat_sub, BitVec.toNat_ofNat]
          have ha := a.isLt
          have hb := b.isLt
          omega
        rw [contents_update hdistinct hptr, hcontents]
        by_cases heq : a = b + BitVec.ofNat 64 n
        · rw [if_pos heq, hback.mp heq, if_pos (Nat.lt_succ_self n)]
        · have hne : (a - b).toNat ≠ n := heq ∘ hback.mpr
          have hiff : (a - b).toNat < n ↔ (a - b).toNat < n + 1 := by omega
          rw [if_neg heq]
          by_cases hlt : (a - b).toNat < n
          · rw [if_pos hlt, if_pos (hiff.mp hlt)]
          · rw [if_neg hlt, if_neg (hlt ∘ hiff.mpr)]
  obtain ⟨mem', hstore, hcontents⟩ := hall
  refine ⟨mem', hstore, funext fun a => ?_⟩
  rw [hcontents, Write.apply]
  by_cases hlt : (a - b).toNat < n
  · have hbyte : Write.byte ⟨b, n, readBytes buffer 0 n⟩ a = buffer (0 + (a - b).toNat) :=
      byte_readBytes hlt
    rw [if_pos hlt, if_pos (show Write.Covers ⟨b, n, readBytes buffer 0 n⟩ a from hlt), hbyte,
      Nat.zero_add]
  · rw [if_neg hlt, if_neg (show ¬ Write.Covers ⟨b, n, readBytes buffer 0 n⟩ a from hlt)]

end Loops

end SRAMAdapter

end NextEmu.Sdk
