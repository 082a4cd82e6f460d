import NextEmu.Sdk.SRAMAdapter

/-!
# The SRAM adapter as a sparse store

The adapter that some registrations have built, over any sequence of loads and stores. Lists of
calls have the newest one first.
-/

namespace NextEmu.Sdk.SparseStore

open Lib.ByteMemory SRAMAdapter

/-- A call of `regAddr`. -/
structure Registration where
  ptr : BitVec 64
  devAddr : Addr
  len : BitVec 64

def Registration.Covers (r : Registration) (a : Addr) : Prop := (a - r.devAddr).toNat < r.len.toNat

instance (r : Registration) (a : Addr) : Decidable (r.Covers a) :=
  inferInstanceAs (Decidable (_ < _))

def registered : List Registration → SRAMAdapter
  | [] => empty
  | r :: rs => (registered rs).regAddr r.ptr r.devAddr r.len

/-- The host byte that the last registration of an address has given it. -/
def hostByte (rs : List Registration) (a : Addr) : Option (BitVec 64) :=
  (rs.find? (·.Covers a)).map fun r => r.ptr + (a - r.devAddr)

/-- Every byte of an access is registered. -/
def AllRegistered (rs : List Registration) (beginAddr : Addr) (len : BitVec 64) : Prop :=
  ∀ i, i < len.toNat → ∃ r ∈ rs, r.Covers (beginAddr + BitVec.ofNat 64 i)

instance (rs : List Registration) (beginAddr : Addr) (len : BitVec 64) :
    Decidable (AllRegistered rs beginAddr len) :=
  inferInstanceAs (Decidable (∀ i, i < len.toNat → ∃ r ∈ rs, _))

/-- The bytes at the device addresses before any access. -/
def initial (rs : List Registration) (mem : Memory 64) : Memory 64 := fun a =>
  match hostByte rs a with
  | some ptr => mem ptr
  | none => 0

inductive Access
  | load (beginAddr : Addr) (len : BitVec 64) (buffer : Nat → BitVec 8)
  | store (beginAddr : Addr) (len : BitVec 64) (buffer : Nat → BitVec 8)

/-- The host memory behind some accesses. -/
def after (s : SRAMAdapter) (mem : Memory 64) : List Access → Except OutOfRange (Memory 64)
  | [] => .ok mem
  | .load beginAddr len buffer :: accesses => do
    let mem ← after s mem accesses
    let _ ← s.load mem beginAddr len buffer
    return mem
  | .store beginAddr len buffer :: accesses => do
    let mem ← after s mem accesses
    let (_, mem) ← s.store mem beginAddr len buffer
    return mem

/-- The bytes that have been stored. -/
def stored (rs : List Registration) : List Access → List (Write 64)
  | [] => []
  | .load _ _ _ :: accesses => stored rs accesses
  | .store beginAddr len buffer :: accesses =>
    if AllRegistered rs beginAddr len then
      ⟨beginAddr, len.toNat, readBytes buffer 0 len.toNat⟩ :: stored rs accesses
    else stored rs accesses

section Registrations

variable {rs : List Registration}

theorem regBytes_map (s : SRAMAdapter) (ptr : BitVec 64) (devAddr : Addr) {n : Nat}
    (hn : n ≤ 2 ^ 64) (a : Addr) : (s.regBytes ptr devAddr n).addrRegMap a =
      if (a - devAddr).toNat < n then some (ptr + (a - devAddr)) else s.addrRegMap a := by
  induction n with
  | zero => exact (if_neg (Nat.not_lt_zero _)).symm
  | succ n ih =>
    have hback : a = devAddr + BitVec.ofNat 64 n ↔ (a - devAddr).toNat = n := by
      rw [← BitVec.toNat_inj, BitVec.toNat_add, BitVec.toNat_sub, BitVec.toNat_ofNat]
      have ha := a.isLt
      have hdev := devAddr.isLt
      omega
    rw [regBytes]
    dsimp only
    rw [Function.update_apply, ih (by omega)]
    by_cases heq : a = devAddr + BitVec.ofNat 64 n
    · have hoff : a - devAddr = BitVec.ofNat 64 n := by
        rw [heq, BitVec.add_comm, BitVec.add_sub_cancel]
      rw [if_pos heq, if_pos (by have := hback.mp heq; omega), hoff]
    · have hne : (a - devAddr).toNat ≠ n := heq ∘ hback.mpr
      have hiff : (a - devAddr).toNat < n ↔ (a - devAddr).toNat < n + 1 := by omega
      rw [if_neg heq]
      by_cases hlt : (a - devAddr).toNat < n
      · rw [if_pos hlt, if_pos (hiff.mp hlt)]
      · rw [if_neg hlt, if_neg (hlt ∘ hiff.mpr)]

/-- The map has the last registration of each address. -/
theorem addrRegMap_registered (rs : List Registration) (a : Addr) :
    (registered rs).addrRegMap a = hostByte rs a := by
  induction rs with
  | nil => rfl
  | cons r rs ih =>
    rw [registered, regAddr, regBytes_map _ _ _ (Nat.le_of_lt r.len.isLt), hostByte,
      List.find?_cons]
    by_cases hcovers : r.Covers a
    · have hlt : (a - r.devAddr).toNat < r.len.toNat := hcovers
      rw [decide_eq_true hcovers, if_pos hlt]
      rfl
    · have hnot : ¬ (a - r.devAddr).toNat < r.len.toNat := hcovers
      rw [decide_eq_false hcovers, if_neg hnot, ih]
      rfl

theorem contents_registered (mem : Memory 64) :
    (registered rs).contents mem = initial rs mem := by
  funext a
  exact congrArg (fun ptr : Option (BitVec 64) => match ptr with
    | some ptr => mem ptr
    | none => 0) (addrRegMap_registered rs a)

theorem registered_iff (a : Addr) : (registered rs).Registered a ↔ ∃ r ∈ rs, r.Covers a := by
  unfold Registered
  rw [addrRegMap_registered, hostByte, ← Option.isSome_iff_ne_none, Option.isSome_map,
    List.find?_isSome]
  simp only [decide_eq_true_eq]

theorem registered_all {beginAddr : Addr} {len : BitVec 64} :
    (∀ i, i < len.toNat → (registered rs).Registered (beginAddr + BitVec.ofNat 64 i)) ↔
      AllRegistered rs beginAddr len := by
  unfold AllRegistered
  simp only [registered_iff]

end Registrations

section Accesses

variable {rs : List Registration} {mem mem' : Memory 64} {beginAddr : Addr} {len : BitVec 64}
  {buffer : Nat → BitVec 8}

theorem load_registered (h : AllRegistered rs beginAddr len) :
    (registered rs).load mem beginAddr len buffer = .ok (.success, fun i =>
      if i < len.toNat then (registered rs).contents mem (beginAddr + BitVec.ofNat 64 i)
      else buffer i) := by
  have hall := registered_all.mpr h
  rw [load, checkBytes_ok hall, loadBytes_ok hall]
  rfl

theorem load_unregistered (h : ¬ AllRegistered rs beginAddr len) :
    (registered rs).load mem beginAddr len buffer = .ok (.outOfRange, buffer) := by
  rw [load, checkBytes_error (h ∘ registered_all.mp)]

variable (mem buffer) in
theorem store_registered (hdistinct : (registered rs).Distinct)
    (h : AllRegistered rs beginAddr len) :
    ∃ mem', (registered rs).store mem beginAddr len buffer = .ok (.success, mem') ∧
      (registered rs).contents mem' =
        Write.apply ⟨beginAddr, len.toNat, readBytes buffer 0 len.toNat⟩
          ((registered rs).contents mem) := by
  have hall := registered_all.mpr h
  obtain ⟨mem', hstore, hcontents⟩ :=
    storeBytes_ok mem buffer hdistinct (Nat.le_of_lt len.isLt) hall
  refine ⟨mem', ?_, hcontents⟩
  rw [store, checkBytes_ok hall, hstore]
  rfl

theorem store_unregistered (h : ¬ AllRegistered rs beginAddr len) :
    (registered rs).store mem beginAddr len buffer = .ok (.outOfRange, mem) := by
  rw [store, checkBytes_error (h ∘ registered_all.mp)]

variable (mem) in
/-- Behind any accesses the store holds the last bytes stored. -/
theorem contents_after (hdistinct : (registered rs).Distinct) (accesses : List Access) :
    ∃ mem', after (registered rs) mem accesses = .ok mem' ∧
      (registered rs).contents mem' =
        replay ((registered rs).contents mem) (stored rs accesses) := by
  induction accesses with
  | nil => exact ⟨mem, rfl, rfl⟩
  | cons access accesses ih =>
    obtain ⟨mem', hafter, hcontents⟩ := ih
    cases access with
    | load beginAddr len buffer =>
      refine ⟨mem', ?_, hcontents⟩
      rw [after, hafter]
      show ((registered rs).load mem' beginAddr len buffer >>= fun _ => pure mem') = _
      by_cases h : AllRegistered rs beginAddr len
      · rw [load_registered h]
        rfl
      · rw [load_unregistered h]
        rfl
    | store beginAddr len buffer =>
      have hstep : after (registered rs) mem (.store beginAddr len buffer :: accesses) =
          ((registered rs).store mem' beginAddr len buffer >>= fun x => pure x.2) := by
        rw [after, hafter]
        rfl
      rw [hstep, stored]
      by_cases h : AllRegistered rs beginAddr len
      · obtain ⟨mem'', hstore, hcontents'⟩ :=
          store_registered mem' buffer hdistinct h
        refine ⟨mem'', ?_, ?_⟩
        · rw [hstore]
          rfl
        · rw [if_pos h, replay, ← hcontents]
          exact hcontents'
      · refine ⟨mem', ?_, ?_⟩
        · rw [store_unregistered h]
          rfl
        · rw [if_neg h]
          exact hcontents

end Accesses

/-- Behind any loads and stores, an access succeeds exactly when all its bytes are registered, a
load then returns the last bytes stored, and an access that fails changes nothing. -/
theorem atomic_store (rs : List Registration)
    (hdistinct : ∀ a a' ptr, hostByte rs a = some ptr → hostByte rs a' = some ptr → a = a')
    (mem : Memory 64) (accesses : List Access) (beginAddr : Addr) (len : BitVec 64)
    (buffer : Nat → BitVec 8) :
    ∃ mem', after (registered rs) mem accesses = .ok mem' ∧
      (∃ feedback buffer',
        (registered rs).load mem' beginAddr len buffer = .ok (feedback, buffer') ∧
        (feedback = .success ↔ AllRegistered rs beginAddr len) ∧
        (AllRegistered rs beginAddr len → ∀ i, buffer' i =
          if i < len.toNat then
            lastByte (initial rs mem) (stored rs accesses)
              (beginAddr + BitVec.ofNat 64 i)
          else buffer i) ∧
        (¬ AllRegistered rs beginAddr len → feedback = .outOfRange ∧ buffer' = buffer)) ∧
      (∃ feedback mem'',
        (registered rs).store mem' beginAddr len buffer = .ok (feedback, mem'') ∧
        (feedback = .success ↔ AllRegistered rs beginAddr len) ∧
        (¬ AllRegistered rs beginAddr len → feedback = .outOfRange ∧ mem'' = mem')) := by
  have hone : (registered rs).Distinct := fun a a' ptr ha ha' =>
    hdistinct a a' ptr ((addrRegMap_registered rs a) ▸ ha) ((addrRegMap_registered rs a') ▸ ha')
  obtain ⟨mem', hafter, hcontents⟩ := contents_after mem hone accesses
  refine ⟨mem', hafter, ?_, ?_⟩
  · by_cases h : AllRegistered rs beginAddr len
    · refine ⟨_, _, load_registered h, iff_of_true rfl h, fun _ i => ?_, fun hnot => absurd h hnot⟩
      rw [hcontents, replay_eq_lastByte, contents_registered]
    · exact ⟨_, _, load_unregistered h, iff_of_false nofun h, fun hall => absurd hall h,
        fun _ => ⟨rfl, rfl⟩⟩
  · by_cases h : AllRegistered rs beginAddr len
    · obtain ⟨mem'', hstore, -⟩ := store_registered mem' buffer hone h
      exact ⟨_, _, hstore, iff_of_true rfl h, fun hnot => absurd h hnot⟩
    · exact ⟨_, _, store_unregistered h, iff_of_false nofun h, fun _ => ⟨rfl, rfl⟩⟩

section Wrapped

/-- Two bytes at the last address and the first one. -/
def wrapped : List Registration := [⟨0x10, 0xffffffffffffffff, 2⟩]

theorem hostByte_wrapped {a : Addr} {ptr : BitVec 64} (h : hostByte wrapped a = some ptr) :
    a = ptr - 0x10 + 0xffffffffffffffff := by
  unfold hostByte wrapped at h
  rw [List.find?_cons] at h
  split at h
  · cases h
    bv_omega
  · cases h

theorem atomic_store_wrapped : ∃ mem' buffer',
    after (registered wrapped) (fun _ => 0) [.store 0xffffffffffffffff 2 fun _ => 0xa5] =
      .ok mem' ∧
    (registered wrapped).load mem' 0xffffffffffffffff 2 (fun _ => 0) = .ok (.success, buffer') ∧
    buffer' 1 = 0xa5 := by
  obtain ⟨mem', hafter, ⟨feedback, buffer', hload, hsuccess, hbytes, -⟩, -⟩ :=
    atomic_store wrapped
      (fun _ _ _ h h' => (hostByte_wrapped h).trans (hostByte_wrapped h').symm)
      (fun _ => 0) [.store 0xffffffffffffffff 2 fun _ => 0xa5] 0xffffffffffffffff 2 (fun _ => 0)
  have hall : AllRegistered wrapped 0xffffffffffffffff 2 := by decide
  cases hsuccess.mpr hall
  exact ⟨mem', buffer', hafter, hload, (hbytes hall 1).trans (by decide)⟩

end Wrapped

end NextEmu.Sdk.SparseStore
